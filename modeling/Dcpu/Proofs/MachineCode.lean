import Dcpu.Proofs.Decoding
import Dcpu.Proofs.DraftSteps

/-! The machine code of programs that consist of instructions and labels. Reading the words of a
clean assembly gives the instructions of the source back, in order and with their values. -/
namespace Dcpu
open Answer

section Spelling

/-- The operand has the code of the match and the literal that was captured. -/
structure Operand.Spells (m : Match) (o : Operand) : Prop where
  code : o.code = m.pattern.code
  literal : o.literal.map Literal.text = m.captures.literal

/-- The instruction is made of what was recognised. -/
structure Instruction.Spells (r : Recognised) (i : Instruction) : Prop where
  opcode : i.opcode = r.opcode.pattern.code
  a : ∃ m, r.a = some m ∧ i.a.Spells m
  b : (r.kind = .nonBasic ∧ i.b = none) ∨
    (r.kind = .basic ∧ ∃ m b, r.b = some m ∧ i.b = some b ∧ b.Spells m)

theorem Operand.Spells.of_skeleton {m : Match} {o o' : Operand} (h : o.Spells m)
    (hs : o'.skeleton = o.skeleton) : o'.Spells m := by
  have hcode : o'.skeleton.code = o.skeleton.code := congrArg Operand.code hs
  have htexts (o : Operand) :
      o.skeleton.literal.map Literal.text = o.literal.map Literal.text := by
    cases hl : o.literal <;> simp [skeleton, hl]
  constructor
  · exact hcode.trans h.code
  · rw [← htexts, hs, htexts, h.literal]

theorem Instruction.Spells.of_skeleton {r : Recognised} {i i' : Instruction} (h : i.Spells r)
    (hs : i'.skeleton = i.skeleton) : i'.Spells r := by
  have ha : i'.a.skeleton = i.a.skeleton := congrArg Instruction.a hs
  have hb : i'.b.map Operand.skeleton = i.b.map Operand.skeleton := congrArg Instruction.b hs
  have hopcode : i'.skeleton.opcode = i.skeleton.opcode := congrArg Instruction.opcode hs
  constructor
  · exact hopcode.trans h.opcode
  · obtain ⟨m, hm, hsm⟩ := h.a
    exact ⟨m, hm, hsm.of_skeleton ha⟩
  · rcases h.b with ⟨hk, hn⟩ | ⟨hk, m, b, hm, hib, hsb⟩
    · left
      rw [hn] at hb
      exact ⟨hk, Option.map_eq_none_iff.mp hb⟩
    · right
      rw [hib, Option.map_some] at hb
      obtain ⟨b', hb', hsk⟩ := Option.map_eq_some_iff.mp hb
      exact ⟨hk, m, b', hm, hb', hsb.of_skeleton hsk⟩

theorem Operand.Spells.wellCoded {t : Text} {m : Match} {o : Operand} (h : o.Spells m)
    (hm : Grammar.standard.match? .value t = some m) : o.WellCoded := by
  obtain ⟨hp, hl⟩ := Grammar.match?_mem hm
  obtain ⟨hlt, hiff⟩ := Grammar.standard_values m.pattern hp
  constructor
  · rw [h.code]
    exact hlt
  · rw [h.code, hiff, ← hl, ← h.literal, Option.isSome_map]

/-- What is recognised was matched with one table for the opcode and one for the operands. -/
theorem Grammar.recognise?_cases {g : Grammar} {t : Text} {r : Recognised}
    (h : g.recognise? t = some r) :
    ((r.kind = .basic ∧ r.opcode.pattern ∈ g.opcodes) ∨
      (r.kind = .nonBasic ∧ r.opcode.pattern ∈ g.nonBasic)) ∧
    (∀ m, r.a = some m → ∃ u, g.match? .value u = some m) ∧
    ∀ m, r.b = some m → ∃ u, g.match? .value u = some m := by
  have hv {u : Option Text} {m : Match} (hu : u.bind (g.match? .value) = some m) :
      ∃ u, g.match? .value u = some m := by
    obtain ⟨u, -, hm⟩ := Option.bind_eq_some_iff.mp hu
    exact ⟨u, hm⟩
  unfold recognise? at h
  dsimp only at h
  split at h
  next m hm =>
    obtain rfl := Option.some.inj h
    exact ⟨.inl ⟨rfl, (Grammar.match?_mem hm).1⟩, fun _ => hv, fun _ => hv⟩
  next =>
    obtain ⟨m, hm, rfl⟩ := Option.map_eq_some_iff.mp h
    exact ⟨.inr ⟨rfl, (Grammar.match?_mem hm).1⟩, fun _ => hv, nofun⟩

theorem Instruction.Spells.wellCoded {t : Text} {r : Recognised} {i : Instruction}
    (h : i.Spells r) (hr : Grammar.standard.recognise? t = some r)
    (hp : i.packed = true → i.a.code = nextWordCode ∧ i.a.fitsPacked = true) : i.WellCoded := by
  obtain ⟨hop, hva, hvb⟩ := Grammar.recognise?_cases hr
  have hlt : r.opcode.pattern.code < 32 := by
    rcases hop with ⟨-, hm⟩ | ⟨-, hm⟩
    · exact (Grammar.standard_opcodes _ hm).2
    · exact Grammar.standard_nonBasic _ hm
  refine ⟨?_, ?_, ?_, ?_, hp⟩
  · rw [h.opcode]
    exact hlt
  · intro hsome
    rw [h.opcode]
    rcases h.b with ⟨-, hn⟩ | ⟨hk, -⟩
    · simp [hn] at hsome
    · rcases hop with ⟨-, hm⟩ | ⟨hk', -⟩
      · exact (Grammar.standard_opcodes _ hm).1
      · simp [hk] at hk'
  · obtain ⟨m, hm, hsm⟩ := h.a
    obtain ⟨u, hu⟩ := hva m hm
    exact hsm.wellCoded hu
  · intro b hb
    rcases h.b with ⟨-, hn⟩ | ⟨-, m, b', hm, hb', hsb⟩
    · simp [hn] at hb
    · obtain rfl := Option.some.inj (hb'.symm.trans hb)
      obtain ⟨u, hu⟩ := hvb m hm
      exact hsb.wellCoded hu

end Spelling

section Lines

/-- The statement of a line, if it has one. -/
def statement? (line : Text) : Option Text :=
  let rest := afterLabel (Text.clean line)
  if rest.isEmpty then none else some (canonicalStatement rest)

theorem toList_statement? (line : Text) :
    (statement? line).toList =
      if (afterLabel (Text.clean line)).isEmpty then []
      else [canonicalStatement (afterLabel (Text.clean line))] := by
  simp only [statement?]
  split
  · rw [Option.toList_none]
  · rw [Option.toList_some]

/-- The statements of a source in order. -/
def statements (source : Text) : List Text := (Text.lines source).filterMap statement?

/-- A line with a label, an instruction, both or nothing: no plugin takes it and its statement is no
directive. -/
structure IsProgramLine (v : Session) (line : Text) : Prop where
  unclaimed : Text.clean line ≠ [] → ∀ c, v.hooks.claim? c (Text.clean line) = none
  instruction : ∀ t, statement? line = some t → t.head?.any Directive.isLead = false

def Entry.instruction? (e : Entry) : Option Instruction :=
  match e.body with
  | .instruction i => some i
  | _ => none

/-- An entry without words, or an instruction that is made of what its text is recognised as. -/
def Entry.Assembled (e : Entry) : Prop :=
  e.body = .blank ∨
    ∃ r i, Grammar.standard.recognise? e.code = some r ∧ e.body = .instruction i ∧ i.Spells r

/-- The entries of some lines: unless one without words is faulty, the instructions among them are
the statements. -/
structure AssembledAs (es : List Entry) (texts : List Text) : Prop where
  own : ∀ e ∈ es, e.own = none
  entries : ∀ e ∈ es, e.Assembled
  codes : (∀ e ∈ es, e.body = .blank → e.fault = none) →
    (es.filter fun e => e.instruction?.isSome).map Entry.code = texts

theorem AssembledAs.nil : AssembledAs [] [] := ⟨by simp, by simp, fun _ => rfl⟩

theorem AssembledAs.append {es fs : List Entry} {ts us : List Text} (h : AssembledAs es ts)
    (h' : AssembledAs fs us) : AssembledAs (es ++ fs) (ts ++ us) := by
  constructor
  · intro e he
    rcases List.mem_append.mp he with he | he
    · exact h.own e he
    · exact h'.own e he
  · intro e he
    rcases List.mem_append.mp he with he | he
    · exact h.entries e he
    · exact h'.entries e he
  · intro hf
    rw [List.filter_append, List.map_append,
      h.codes fun e he => hf e (List.mem_append_left fs he),
      h'.codes fun e he => hf e (List.mem_append_right es he)]

theorem AssembledAs.label {e : Entry} (ho : e.own = none) (h : e.body = .blank) :
    AssembledAs [e] [] := by
  constructor
  · simpa using ho
  · intro f hf
    obtain rfl := List.mem_singleton.mp hf
    exact .inl h
  · intro _
    simp [Entry.instruction?, h, Body.blank]

theorem AssembledAs.faulty {e : Entry} (ho : e.own = none) (h : e.body = .blank)
    (hf : e.fault ≠ none) (texts : List Text) : AssembledAs [e] texts := by
  constructor
  · exact (AssembledAs.label ho h).own
  · exact (AssembledAs.label ho h).entries
  · intro hgood
    exact absurd (hgood e (List.mem_singleton_self e) h) hf

theorem AssembledAs.single {e : Entry} {r : Recognised} {i : Instruction} (ho : e.own = none)
    (hr : Grammar.standard.recognise? e.code = some r) (hb : e.body = .instruction i)
    (hi : i.Spells r) : AssembledAs [e] [e.code] := by
  constructor
  · simpa using ho
  · intro f hf
    obtain rfl := List.mem_singleton.mp hf
    exact .inr ⟨r, i, hr, hb, hi⟩
  · intro _
    simp [Entry.instruction?, hb]

theorem Operand.ofMatch_spells {v : Session} {s u : SymbolTable} {p : Position} {m : Match}
    {o : Operand} {ok : Bool} (h : Operand.ofMatch v s p m = .ok (o, ok, u)) : o.Spells m := by
  unfold Operand.ofMatch at h
  split at h
  next hn =>
    obtain ⟨rfl, -, -⟩ : (⟨m.pattern.code, none⟩ : Operand) = o ∧ _ ∧ _ := by simpa using h
    exact ⟨rfl, by simp [hn]⟩
  next x hx =>
    obtain ⟨⟨r, s'⟩, -, h⟩ := bind_eq_ok.mp h
    obtain ⟨rfl, -, -⟩ : (⟨m.pattern.code, some ⟨x, r.value⟩⟩ : Operand) = o ∧ _ ∧ _ := by
      simpa using pure_eq_ok.mp h
    exact ⟨rfl, by simp [hx]⟩

end Lines

namespace Draft

variable {v : Session} {d d' : Draft} {line : SourceLine} {t : Text}

/-- The draft has grown by the entries of some statements, and goes on with the same lines. -/
def Grown (d d' : Draft) (texts : List Text) : Prop :=
  ∃ es, d'.entries.toList = d.entries.toList ++ es ∧ AssembledAs es texts ∧
    d'.feed = d.feed ∧ d'.templates = d.templates ∧ d'.blocks = d.blocks

theorem Grown.refl (d : Draft) : d.Grown d [] := ⟨[], by simp, .nil, rfl, rfl, rfl⟩

theorem Grown.trans {d'' : Draft} {ts us : List Text} (h : d.Grown d' ts) (h' : d'.Grown d'' us) :
    d.Grown d'' (ts ++ us) := by
  obtain ⟨es, he, ha, hf, ht, hb⟩ := h
  obtain ⟨fs, he', ha', hf', ht', hb'⟩ := h'
  refine ⟨es ++ fs, ?_, ha.append ha', hf'.trans hf, ht'.trans ht, hb'.trans hb⟩
  rw [he', he, List.append_assoc]

/-- Whatever caution an entry gets when it is pushed, it stands for the same statement. -/
theorem Grown.push (d : Draft) {e : Entry} {texts : List Text}
    (h : ∀ c, AssembledAs [{ e with caution := c }] texts) : d.Grown (d.push e) texts := by
  obtain ⟨c, hc⟩ := d.push_eq e
  rw [hc]
  exact ⟨[{ e with caution := c }], by simp, h c, rfl, rfl, rfl⟩

/-- A label line adds an entry without words, also if the name cannot be bound. -/
theorem takeLabel_grown (d : Draft) (line : SourceLine) (t : Text) :
    d.Grown (d.takeLabel line t).1 [] := by
  have hl (s : SymbolTable) (e : Entry) (ho : e.own = none) (hb : e.body = .blank) :
      d.Grown ({ d with symbols := s }.push e) [] :=
    Grown.push { d with symbols := s } fun _ => .label ho hb
  unfold takeLabel
  cases LabelPart.ofLine? t with
  | none => exact .refl d
  | some label =>
    dsimp only
    split
    · exact hl _ _ rfl rfl
    · cases faultOf (d.symbols.defineLabel label.name d.address d.entries.size).1 with
      | none => exact hl _ _ rfl rfl
      | some f => exact hl _ { d.entry line label.code with fault := some f } rfl rfl

theorem encoded_grown {e : Entry} {opcode a : Match} {b : Option Match} {r : Recognised}
    (ho : e.own = none) (hr : Grammar.standard.recognise? e.code = some r) (hop : r.opcode = opcode)
    (ha : r.a = some a) (hb : (r.kind = .nonBasic ∧ b = none) ∨ (r.kind = .basic ∧ b = r.b ∧ b.isSome))
    (h : d.encoded v e opcode a b = .ok d') : d.Grown d' [e.code] := by
  obtain ⟨⟨oa, ok, s⟩, hoa, h⟩ := bind_eq_ok.mp h
  obtain ⟨⟨ob, u⟩, hob, h⟩ := bind_eq_ok.mp h
  obtain rfl := pure_eq_ok.mp h
  have hspells : Instruction.Spells r
      ((⟨opcode.pattern.code, oa, ob, false⟩ : Instruction).pack (ok && !d.longForm)) := by
    refine ⟨by rw [hop]; rfl, ⟨a, ha, Operand.ofMatch_spells hoa⟩, ?_⟩
    rcases hb with ⟨hk, rfl⟩ | ⟨hk, hbr, hs⟩
    · obtain ⟨rfl, -⟩ := Prod.mk.inj (Except.ok.inj hob)
      exact .inl ⟨hk, rfl⟩
    · obtain ⟨m, rfl⟩ := Option.isSome_iff_exists.mp hs
      obtain ⟨⟨o, okB, w⟩, ho, hob⟩ := bind_eq_ok.mp hob
      obtain ⟨rfl, -⟩ := Prod.mk.inj (pure_eq_ok.mp hob)
      exact .inr ⟨hk, m, o, hbr.symm, rfl, Operand.ofMatch_spells ho⟩
  exact Grown.push { d with symbols := u } fun _ => .single (e := { e with
    body := .instruction _, caution := _ }) ho hr rfl hspells

theorem instruction_grown (hg : v.grammar = .standard) (h : d.instruction v line t = .ok d') :
    d.Grown d' [t] := by
  have hfault (e : Entry) (f : Fault) (ho : e.own = none) (hb : e.body = .blank) :
      d.Grown (d.pushFault e f) [t] := by
    apply Grown.push
    intro c
    apply AssembledAs.faulty
    · exact ho
    · exact hb
    · simp
  unfold instruction at h
  rw [hg] at h
  dsimp only at h
  split at h
  · obtain rfl := Except.ok.inj h
    exact hfault _ _ rfl rfl
  next r hr =>
    split at h
    next a b hk ha hb => exact encoded_grown rfl hr rfl ha (.inr ⟨hk, hb.symm, rfl⟩) h
    next _ _ a hk ha => exact encoded_grown rfl hr rfl ha (.inl ⟨hk, rfl⟩) h
    next =>
      obtain rfl := Except.ok.inj h
      exact hfault _ _ rfl rfl

/-- Without macros and directives a statement is an instruction. -/
theorem statement_grown (hg : v.grammar = .standard) (ht : d.templates = [])
    (hl : t ≠ [] → (canonicalStatement t).head?.any Directive.isLead = false)
    (h : d.statement v line t = .ok d') :
    d.Grown d' (if t.isEmpty then [] else [canonicalStatement t]) := by
  unfold statement at h
  split at h
  next he =>
    obtain rfl := Except.ok.inj h
    rw [if_pos he]
    exact .refl d
  next he =>
    have hne : t ≠ [] := fun hn => he (List.isEmpty_iff.mpr hn)
    have hcall : d.expandCall? line (canonicalStatement t) = none := by
      simp [expandCall?, Template.find?, ht]
    rw [if_neg he]
    dsimp only at h
    rw [hl hne, hcall] at h
    exact instruction_grown hg h

/-- A line of a program adds the entries of its statement. -/
theorem line_grown (hg : v.grammar = .standard) (ht : d.templates = [])
    (hb : d.blocks.active = true) (hl : IsProgramLine v line.text) (h : d.line v line = .ok d') :
    d.Grown d' (statement? line.text).toList := by
  unfold Draft.line at h
  dsimp only at h
  split at h
  next he =>
    obtain rfl := Except.ok.inj h
    have hn : statement? line.text = none := by
      rw [statement?, List.isEmpty_iff.mp he]
      rfl
    rw [hn]
    exact .refl d
  next he =>
    have hne : Text.clean line.text ≠ [] := fun hn => he (List.isEmpty_iff.mpr hn)
    have hactive : (!d.blocks.active) = false := by simp [hb]
    simp only [hactive, hl.unclaimed hne, Bool.false_eq_true, if_false] at h
    have hgrown := takeLabel_grown d line (Text.clean line.text)
    have hrest := takeLabel_rest d line (Text.clean line.text)
    have htemplates : (d.takeLabel line (Text.clean line.text)).1.templates = [] := by
      obtain ⟨-, -, -, -, htt, -⟩ := hgrown
      exact htt.trans ht
    have hs := statement_grown hg htemplates ?_ h
    · rw [hrest] at hs
      have hboth := hgrown.trans hs
      rw [List.nil_append, ← toList_statement?] at hboth
      exact hboth
    · rw [hrest]
      intro hn
      apply hl.instruction
      simp [statement?, hn]

/-- Lines of a single frame, read to the end. -/
theorem readAll_grown {steps : Nat} {f : Frame} (hg : v.grammar = .standard)
    (hf : d.feed.frames = [f]) (ht : d.templates = []) (hb : d.blocks.active = true)
    (hl : ∀ t ∈ f.rest, IsProgramLine v t) (h : d.readAll v steps = .ok d') :
    ∃ es, d'.entries.toList = d.entries.toList ++ es ∧
      AssembledAs es (f.rest.filterMap statement?) := by
  induction steps generalizing d f with
  | zero => cases h
  | succ steps ih =>
    rw [readAll, Feed.next?, hf] at h
    cases hr : f.rest with
    | nil =>
      have hn : Feed.nextInFrame? { d.feed with
          frames := [f].dropWhile fun f => f.rest.isEmpty } = none := by
        simp [Feed.nextInFrame?, hr]
      rw [hn] at h
      obtain rfl := Except.ok.inj h
      exact ⟨[], by simp, .nil⟩
    | cons t rest =>
      have hn : Feed.nextInFrame? { d.feed with
          frames := [f].dropWhile fun f => f.rest.isEmpty } =
          some (⟨t, f.file, f.numbering.ahead 0, d.feed.root + 1⟩,
            ⟨[f.drop 1], d.feed.root + 1⟩) := by
        simp [Feed.nextInFrame?, hr]
      rw [hn] at h
      dsimp only at h
      split at h
      next d₁ hline =>
        have hmem : IsProgramLine v t := hl t (by simp [hr])
        obtain ⟨es, hes, has, hfeed, htem, hblo⟩ := line_grown
          (d := { d with feed := ⟨[f.drop 1], d.feed.root + 1⟩ }) hg ht hb hmem hline
        have hrest : (f.drop 1).rest = rest := by simp [Frame.drop, hr]
        obtain ⟨fs, hfs, hafs⟩ := ih (f := f.drop 1) (by rw [hfeed]) (htem.trans ht)
          (by rw [hblo]; exact hb) (fun u hu => hl u (by rw [hrest] at hu; simp [hr, hu])) h
        refine ⟨es ++ fs, by rw [hfs, hes, List.append_assoc], ?_⟩
        rw [hrest] at hafs
        have hall := has.append hafs
        cases hs : statement? t with
        | none => simpa [hs] using hall
        | some u => simpa [hs] using hall
      next => cases h

end Draft

/-- All instructions of a program are made of what their lines are recognised as. -/
theorem Session.readAll_assembled {v : Session} {steps : Nat} {file source : Text} {d : Draft}
    (hg : v.grammar = .standard) (hl : ∀ t ∈ Text.lines source, IsProgramLine v t)
    (h : (v.start file source).readAll v steps = .ok d) :
    AssembledAs d.entries.toList (statements source) := by
  obtain ⟨es, hes, ha⟩ := Draft.readAll_grown (d := v.start file source)
    (f := ⟨file, Text.lines source, .counted 0⟩) hg rfl rfl rfl hl h
  have hnil : d.entries.toList = es := by simpa [Session.start] using hes
  rw [hnil]
  exact ha

section Words

def Entry.view? (e : Entry) : Option ReadInstruction := e.instruction?.map Instruction.view

/-- Words are read back if they come from instructions that can be. -/
theorem decode_flatMap_output {es : List Entry} (ho : ∀ e ∈ es, e.own = none)
    (h : ∀ e ∈ es, (e.output = [] ∧ e.instruction? = none) ∨
      ∃ i, e.body = .instruction i ∧ i.WellCoded) :
    decode (es.flatMap Entry.output) = some (es.filterMap Entry.view?) := by
  induction es with
  | nil => simp [decode]
  | cons e es ih =>
    have hes := ih (fun f hf => ho f (List.mem_cons_of_mem e hf)) fun f hf =>
      h f (List.mem_cons_of_mem e hf)
    rw [List.flatMap_cons]
    rcases h e List.mem_cons_self with ⟨hout, hn⟩ | ⟨i, hb, hi⟩
    · simp [hout, hes, Entry.view?, hn]
    · rw [Entry.output_of_own (ho e List.mem_cons_self), hb, Body.output, hi.decode_encode, hes]
      simp [Entry.view?, Entry.instruction?, hb]

theorem Entry.forall₂_view? {P : Entry → ReadInstruction → Prop} {es : List Entry}
    (h : ∀ e ∈ es, ∀ i, e.body = .instruction i → P e i.view) :
    List.Forall₂ P (es.filter fun e => e.instruction?.isSome) (es.filterMap Entry.view?) := by
  induction es with
  | nil => exact .nil
  | cons e es ih =>
    have hes := ih fun f hf => h f (List.mem_cons_of_mem e hf)
    cases hb : e.body with
    | instruction i =>
      have hi : e.instruction? = some i := by simp [Entry.instruction?, hb]
      simpa [List.filter_cons, view?, hi] using ⟨h e List.mem_cons_self i hb, hes⟩
    | _ => simpa [List.filter_cons, view?, Entry.instruction?, hb] using hes

/-- The operand that was read has the code of the match, and the value of its literal. -/
def ReadOperand.Matches (v : Session) (s : SymbolTable) (p : Position) (m : Match)
    (o : ReadOperand) : Prop :=
  o.code = m.pattern.code ∧ ((m.captures.literal = none ∧ o.value = none) ∨
    ∃ x w, m.captures.literal = some x ∧ o.value = some w ∧ HasValue v s p x w)

/-- The instruction that was read is the one that the entry's text is recognised as. -/
def Entry.ReadsBack (v : Session) (s : SymbolTable) (e : Entry) (i : ReadInstruction) : Prop :=
  ∃ r, Grammar.standard.recognise? e.code = some r ∧ i.opcode = r.opcode.pattern.code ∧
    (∃ m, r.a = some m ∧ i.a.Matches v s e.position m) ∧
    ((r.kind = .nonBasic ∧ i.b = none) ∨ (r.kind = .basic ∧
      ∃ m o, r.b = some m ∧ i.b = some o ∧ o.Matches v s e.position m))

theorem Operand.Spells.matches_view {v : Session} {s : SymbolTable} {p : Position} {m : Match}
    {o : Operand} (h : o.Spells m)
    (hv : ∀ l, o.literal = some l → HasValue v s p l.text l.value) : o.view.Matches v s p m := by
  refine ⟨h.code, ?_⟩
  have hl := h.literal
  cases ho : o.literal with
  | none =>
    rw [ho] at hl
    exact .inl ⟨hl.symm, by simp [view, ho]⟩
  | some l =>
    rw [ho] at hl
    exact .inr ⟨l.text, l.value, hl.symm, by simp [view, ho], hv l ho⟩

end Words

theorem Entry.Assembled.of_skeleton {e e' : Entry} (h : e.Assembled)
    (hs : e'.skeleton = e.skeleton) : e'.Assembled := by
  have hcode : e'.skeleton.code = e.skeleton.code := congrArg Entry.code hs
  have hbody : e'.body.skeleton = e.body.skeleton := congrArg Entry.body hs
  rcases h with hb | ⟨r, i, hr, hb, hi⟩
  · left
    rw [hb] at hbody
    cases hb' : e'.body <;> simp_all [Body.skeleton, Body.blank]
  · right
    rw [hb] at hbody
    cases hb' : e'.body with
    | instruction i' =>
      rw [hb'] at hbody
      refine ⟨r, i', ?_, rfl, hi.of_skeleton (Body.instruction.inj hbody)⟩
      rw [← hr]
      exact congrArg _ hcode
    | _ => simp [hb', Body.skeleton] at hbody

theorem Entry.instruction?_skeleton (e : Entry) :
    e.skeleton.instruction?.isSome = e.instruction?.isSome := by
  cases hb : e.body <;> simp [Entry.instruction?, Entry.skeleton, Body.skeleton, hb]

/-- The texts of the instructions are the same before and after passes. -/
theorem codes_of_skeleton {es fs : List Entry}
    (h : fs.map Entry.skeleton = es.map Entry.skeleton) :
    (fs.filter fun e => e.instruction?.isSome).map Entry.code =
      (es.filter fun e => e.instruction?.isSome).map Entry.code := by
  have hs (es : List Entry) : (es.filter fun e => e.instruction?.isSome).map Entry.code =
      ((es.map Entry.skeleton).filter fun e => e.instruction?.isSome).map Entry.code := by
    rw [List.filter_map, List.map_map]
    simp only [Function.comp_def, Entry.instruction?_skeleton]
    rfl
  rw [hs, h, ← hs]

namespace Assembly

variable {a : Assembly}

theorem fixedPoint_of_isClean (h : a.isClean = true) : a.fixedPoint = true :=
  (Bool.and_eq_true_iff.mp h).1

theorem fault_of_isClean (h : a.isClean = true) {e : Entry} (he : e ∈ a.entries) :
    e.fault = none := by
  have hn := List.isEmpty_iff.mp (Bool.and_eq_true_iff.mp h).2
  simpa using List.filter_eq_nil_iff.mp hn e he

end Assembly

/-- In a clean assembly the instructions of a program stand for its statements. -/
theorem Session.run_assembled {v : Session} {steps : Nat} {file source : Text} {a : Assembly}
    (hg : v.grammar = .standard) (hl : ∀ t ∈ Text.lines source, IsProgramLine v t)
    (h : v.run steps file source = .ok a) (hc : a.isClean = true) :
    AssembledAs a.entries (statements source) := by
  obtain ⟨d, l, hd, hp, hae, -, -⟩ := Session.run_passes h
  have hread := Session.readAll_assembled hg hl hd
  have hskel : l.entries.toList.map Entry.skeleton = d.entries.toList.map Entry.skeleton :=
    hp.skeleton
  rw [hae]
  constructor
  · exact hp.updated.forall_own hread.own
  · intro e he
    obtain ⟨k, hk⟩ := List.mem_iff_getElem?.mp he
    have hmap := congrArg (fun es => es[k]?) hskel
    simp only [List.getElem?_map, hk, Option.map_some] at hmap
    obtain ⟨e₀, he₀, hs⟩ := Option.map_eq_some_iff.mp hmap.symm
    exact (hread.entries e₀ (List.mem_of_getElem? he₀)).of_skeleton hs.symm
  · intro _
    rw [codes_of_skeleton hskel]
    apply hread.codes
    intro e he hb
    obtain ⟨k, hk⟩ := List.mem_iff_getElem?.mp he
    obtain ⟨e', he', hu⟩ := hp.updated.get hk
    have hfault : e'.fault = none := by
      apply Assembly.fault_of_isClean hc
      rw [hae]
      exact List.mem_of_getElem? he'
    rw [hu.eq_of_blank hb] at hfault
    exact hfault

/-- In a clean assembly every instruction has been evaluated, and its literals have values. -/
theorem Session.run_evaluated {v : Session} {steps : Nat} {file source : Text} {a : Assembly}
    (h : v.run steps file source = .ok a) (hc : a.isClean = true) {e : Entry} (he : e ∈ a.entries)
    (marks : ∀ x ∈ e.body.texts, IgnoresMarks v x) {i : Instruction}
    (hb : e.body = .instruction i) :
    ∃ s long, s.Marked a.symbols ∧ i.IsEvaluated v s e.position long ∧
      ∀ x ∈ e.body.texts, ∃ w, HasValue v a.symbols e.position x w := by
  obtain ⟨l, hae, has, hu⟩ := Session.exists_upToDate h (Assembly.fixedPoint_of_isClean hc)
  have hf := Assembly.fault_of_isClean hc he
  rw [hae] at he
  obtain ⟨k, hk⟩ := List.mem_iff_getElem?.mp he
  have hlt : k < l.entries.size := (List.getElem?_eq_some_iff.mp hk).1
  have hv : e.body.isVariable = true := by simp [hb, Body.isVariable]
  obtain ⟨s, hs, hev, -, hans⟩ := hu.entries k e hlt hk hv
  rw [hb] at hev
  rw [has]
  refine ⟨s, _, hs, hev, ?_⟩
  intro x hx
  obtain ⟨r, hr, hok⟩ := (hans hf x hx).exists_eval hs (marks x hx _ _)
  exact ⟨r.value, hasValue_of_eval hr hok (marks x hx _ _)⟩

/-- Reading the words of a clean program gives its instructions back: for each statement of the
source, in order, the opcode and the operands that it is recognised as, with the values that their
literals have in the end. No word is left over. -/
theorem decode_words {v : Session} {steps : Nat} {file source : Text} {a : Assembly}
    (hg : v.grammar = .standard) (hl : ∀ t ∈ Text.lines source, IsProgramLine v t)
    (h : v.run steps file source = .ok a) (hc : a.isClean = true)
    (marks : ∀ e ∈ a.entries, ∀ x ∈ e.body.texts, IgnoresMarks v x) :
    (a.entries.filter fun e => e.instruction?.isSome).map Entry.code = statements source ∧
    ∃ is, decode a.words = some is ∧ List.Forall₂ (Entry.ReadsBack v a.symbols)
      (a.entries.filter fun e => e.instruction?.isSome) is := by
  have ha := Session.run_assembled hg hl h hc
  have hspell {e : Entry} (he : e ∈ a.entries) {i : Instruction} (hb : e.body = .instruction i) :
      ∃ r, Grammar.standard.recognise? e.code = some r ∧ i.Spells r := by
    rcases ha.entries e he with hn | ⟨r, j, hr, hj, hs⟩
    · simp [hb, Body.blank] at hn
    · obtain rfl := Body.instruction.inj (hb.symm.trans hj)
      exact ⟨r, hr, hs⟩
  refine ⟨ha.codes fun e he _ => Assembly.fault_of_isClean hc he, a.entries.filterMap Entry.view?,
    decode_flatMap_output ha.own fun e he => ?_, Entry.forall₂_view? fun e he i hb => ?_⟩
  · rcases ha.entries e he with hn | ⟨r, i, hr, hb, hs⟩
    · left
      simp [Entry.output_of_own (ha.own e he), Entry.instruction?, hn, Body.blank, Body.output]
    · right
      obtain ⟨s, long, -, hev, -⟩ := Session.run_evaluated h hc he (marks e he) hb
      refine ⟨i, hb, hs.wellCoded hr fun hp => ?_⟩
      obtain ⟨ok, u, -, -, -, hpack⟩ := hev
      simp only [hpack, Bool.and_eq_true, beq_iff_eq] at hp
      exact ⟨hp.1.2, hp.2⟩
  · obtain ⟨r, hr, hs⟩ := hspell he hb
    obtain ⟨s, long, hm, hev, hval⟩ := Session.run_evaluated h hc he (marks e he) hb
    have hva (l : Literal) (hl : i.a.literal = some l) :
        HasValue v a.symbols e.position l.text l.value := by
      obtain ⟨w, hw⟩ := hval l.text (by simp [hb, Body.texts, Operand.texts, hl])
      rw [(hev.packed_iff hm hl hw).1]
      exact hw
    have hvb (b : Operand) (hib : i.b = some b) (l : Literal) (hl : b.literal = some l) :
        HasValue v a.symbols e.position l.text l.value := by
      obtain ⟨w, hw⟩ := hval l.text (by simp [hb, Body.texts, Operand.texts, hib, hl])
      rw [hev.valueB_eq hm hib hl hw]
      exact hw
    obtain ⟨m, hma, hsa⟩ := hs.a
    refine ⟨r, hr, hs.opcode, ⟨m, hma, hsa.matches_view hva⟩, ?_⟩
    rcases hs.b with ⟨hk, hn⟩ | ⟨hk, mb, b, hmb, hib, hsb⟩
    · exact .inl ⟨hk, by simp [Instruction.view, hn]⟩
    · exact .inr ⟨hk, mb, b.view, hmb, by simp [Instruction.view, hib],
        hsb.matches_view (hvb b hib)⟩

theorem isProgramLine_bare {line : Text}
    (h : ((statement? line).all fun t => !t.head?.any Directive.isLead) = true) :
    IsProgramLine .bare line := by
  refine ⟨fun _ _ => rfl, fun t ht => ?_⟩
  rw [ht] at h
  simpa using h

/-- A literal that is packed in the end, one in a word of its own, and two of one instruction. -/
theorem decode_words_sample : ∃ (a : Assembly) (is : List ReadInstruction),
    Session.bare.run 9 [] "SET A, end\n:loop SET [loop+0x1000], 40\nJSR loop\n:end".toList = .ok a ∧
    a.isClean = true ∧
    (a.entries.filter fun e => e.instruction?.isSome).map Entry.code =
      ["SET A, end".toList, "SET [loop+0x1000], 40".toList, "JSR loop".toList] ∧
    decode a.words = some is ∧ List.Forall₂ (Entry.ReadsBack .bare a.symbols)
      (a.entries.filter fun e => e.instruction?.isSome) is := by
  obtain ⟨a, ha, hp⟩ := exists_ok
    (x := Session.bare.run 9 []
      "SET A, end\n:loop SET [loop+0x1000], 40\nJSR loop\n:end".toList)
    (p := fun a => a.isClean && a.entries.all fun e =>
      e.body.texts.all fun x => !(Text.lower x).contains 'r')
    (by decide +kernel)
  obtain ⟨hc, hp⟩ := Bool.and_eq_true_iff.mp hp
  have hlines : ∀ t ∈ Text.lines
      "SET A, end\n:loop SET [loop+0x1000], 40\nJSR loop\n:end".toList,
      ((statement? t).all fun t => !t.head?.any Directive.isLead) = true := by
    decide +kernel
  have htexts : statements "SET A, end\n:loop SET [loop+0x1000], 40\nJSR loop\n:end".toList =
      ["SET A, end".toList, "SET [loop+0x1000], 40".toList, "JSR loop".toList] := by
    decide +kernel
  have marks (e : Entry) (he : e ∈ a.entries) (x : Text) (hx : x ∈ e.body.texts) :
      IgnoresMarks .bare x := by
    apply ignoresMarks_of_standard rfl
    simpa using List.all_eq_true.mp (List.all_eq_true.mp hp e he) x hx
  obtain ⟨hcodes, is, hdec, hall⟩ :=
    decode_words rfl (fun t ht => isProgramLine_bare (hlines t ht)) ha hc marks
  exact ⟨a, is, ha, hc, hcodes.trans htexts, hdec, hall⟩

end Dcpu
