import Dcpu.Proofs.Addresses
import Dcpu.Proofs.Evaluation
import Dcpu.Proofs.Rounds

/-! Layouts of one and the same program. They differ in values, faults and forms of literals, and in
the addresses that follow from the forms: the fewer words the instructions have, the lower stands
what follows. A token that is an address is the address of the same entry in all of them. -/
namespace Dcpu

namespace SymbolTable

variable {s t : SymbolTable}

/-- A table without addresses and marks. -/
def skeleton (s : SymbolTable) : SymbolTable :=
  { s with
    labels := s.labels.map fun (key, l) => (key, { l with address := 0 })
    anonymous := s.anonymous.map fun l => { l with address := 0 }
    referenced := [] }

theorem Marked.skeleton_eq (h : s.Marked t) : t.skeleton = s.skeleton := by
  rw [h.eq_with]
  rfl

theorem skeleton_shiftBy (s : SymbolTable) (f : Nat → Int) :
    (s.shiftBy f).skeleton = s.skeleton := by
  simp [skeleton, shiftBy, Label.moveBy, AnonymousLabel.moveBy, Function.comp_def]

theorem equate?_of_skeleton (h : t.skeleton = s.skeleton) (name : Text) :
    t.equate? name = s.equate? name := by
  have he : t.skeleton.equates = s.skeleton.equates := congrArg equates h
  exact congrArg (List.lookup (Text.lower name)) he

theorem label?_skeleton (s : SymbolTable) (name : Text) :
    s.skeleton.label? name = (s.label? name).map fun l => { l with address := 0 } := by
  simp only [label?, skeleton]
  induction s.labels with
  | nil => rfl
  | cons row rows ih =>
    rw [List.map_cons, List.lookup_cons, List.lookup_cons, ih]
    split
    · rfl
    · rfl

theorem mem_of_label? {name : Text} {l : Label} (h : s.label? name = some l) :
    (Text.lower name, l) ∈ s.labels := by
  obtain ⟨before, after, hs, -⟩ := List.lookup_eq_some_iff.mp h
  simp [hs]

/-- The anonymous label that some signs after a `$` lead to. -/
def walkLabel? (s : SymbolTable) (root : Nat) (signs : Text) : Option AnonymousLabel :=
  let later := s.anonymous.findIdx fun l => l.root ≤ root
  if signs.all (· == '+') then
    if signs.length = 0 || later < signs.length then none else s.anonymous[later - signs.length]?
  else if signs.all (· == '-') then
    if signs.length = 0 then none
    else (s.anonymous.dropWhile fun l => root < l.root)[signs.length - 1]?
  else none

theorem walk?_eq (c : Expr.Context) (signs : Text) :
    c.walk? signs =
      (c.symbols.walkLabel? c.position.root signs).map AnonymousLabel.address := by
  simp only [Expr.Context.walk?, walkLabel?, forward?, backward?]
  split
  · split <;> rfl
  · split
    · split <;> rfl
    · rfl

theorem walkLabel?_skeleton (s : SymbolTable) (root : Nat) (signs : Text) :
    s.skeleton.walkLabel? root signs =
      (s.walkLabel? root signs).map fun l => { l with address := 0 } := by
  simp only [walkLabel?, skeleton, List.findIdx_map, List.dropWhile_map, Function.comp_def,
    List.getElem?_map]
  split
  · split <;> rfl
  · split
    · split <;> rfl
    · rfl

theorem mem_of_walkLabel? {root : Nat} {signs : Text} {l : AnonymousLabel}
    (h : s.walkLabel? root signs = some l) : l ∈ s.anonymous := by
  simp only [walkLabel?] at h
  split at h
  · split at h
    · nomatch h
    · exact List.mem_of_getElem? h
  · split at h
    · split at h
      · nomatch h
      · exact (List.dropWhile_sublist _).subset (List.mem_of_getElem? h)
    · nomatch h

/-- Names stand at the same entries in both tables. -/
theorem label?_of_skeleton (h : t.skeleton = s.skeleton) (name : Text) :
    (t.label? name).map Label.position = (s.label? name).map Label.position := by
  have hl (u : SymbolTable) : (u.label? name).map Label.position =
      (u.skeleton.label? name).map Label.position := by
    rw [label?_skeleton, Option.map_map]
    rfl
  rw [hl, h, ← hl]

theorem walkLabel?_of_skeleton (h : t.skeleton = s.skeleton) (root : Nat) (signs : Text) :
    (t.walkLabel? root signs).map AnonymousLabel.position =
      (s.walkLabel? root signs).map AnonymousLabel.position := by
  have hl (u : SymbolTable) : (u.walkLabel? root signs).map AnonymousLabel.position =
      (u.skeleton.walkLabel? root signs).map AnonymousLabel.position := by
    rw [walkLabel?_skeleton, Option.map_map]
    rfl
  rw [hl, h, ← hl]

end SymbolTable

section Targets

/-- What a token stands for: an answer that is the same in all layouts, or the address of an
entry. -/
inductive Target where
  | fixed (answer : Except Abort Result)
  | entry (k : Nat)

def Target.Answers (es : List Entry) (answer : Except Abort Result) : Target → Prop
  | .fixed a => answer = a
  | .entry k => ∃ e r, es[k]? = some e ∧ answer = .ok r ∧ r.ok = true ∧ r.relocatable = true ∧
      r.value = e.address

/-- The table `t` and the position `q` are `s` and the position `p` of the entry `k` in another
layout with the entries `es`. -/
structure Relaid (s : SymbolTable) (p : Position) (k : Nat) (t : SymbolTable) (q : Position)
    (es : List Entry) : Prop where
  skeleton : t.skeleton = s.skeleton
  laid : WellLaid es t
  root : q.root = p.root
  scope : q.scope = p.scope
  here : ∃ e, es[k]? = some e ∧ e.address = q.address

/-- What is answered stands for the target in every layout. -/
def Target.Of (v : Session) (s : SymbolTable) (p : Position) (k : Nat)
    (answer : Expr.Context → Except Abort Result) (target : Target) : Prop :=
  ∀ t q es, Relaid s p k t q es → target.Answers es (answer (v.context t q))

variable {v : Session}

theorem exists_target_symbol (s : SymbolTable) (p : Position) (k : Nat) (x : Text) :
    ∃ target : Target, target.Of v s p k fun c => .ok (c.symbol x) := by
  let name := Text.lower (Name.qualify p.scope x)
  cases he : s.equate? name with
  | some w =>
    refine ⟨.fixed (.ok { Result.ofWord w with references := [name] }), fun t q es h => ?_⟩
    have ht : t.equate? name = some w := (SymbolTable.equate?_of_skeleton h.skeleton name).trans he
    simp only [Target.Answers, Expr.Context.symbol, h.scope]
    rw [ht]
  | none =>
    have ht {t : SymbolTable} (h : t.skeleton = s.skeleton) : t.equate? name = none :=
      (SymbolTable.equate?_of_skeleton h name).trans he
    cases hl : s.label? name with
    | none =>
      refine ⟨.fixed (.ok { Result.failed with references := [name] }), fun t q es h => ?_⟩
      have hp := SymbolTable.label?_of_skeleton h.skeleton name
      have hn : t.label? name = none := by simpa [hl] using hp
      simp only [Target.Answers, Expr.Context.symbol, h.scope]
      rw [ht h.skeleton, hn]
    | some l =>
      refine ⟨.entry l.position, fun t q es h => ?_⟩
      have hp := SymbolTable.label?_of_skeleton h.skeleton name
      rw [hl] at hp
      obtain ⟨m, hm, hpos⟩ := Option.map_eq_some_iff.mp hp
      obtain ⟨e, hget, -, ha⟩ := h.laid.labels _ (SymbolTable.mem_of_label? hm)
      rw [hpos] at hget
      refine ⟨e, { Result.address? (some m.address) with references := [name] }, hget, ?_, rfl,
        rfl, ha.symm⟩
      simp only [Expr.Context.symbol, h.scope]
      rw [ht h.skeleton, hm]

theorem exists_target_word (s : SymbolTable) (p : Position) (k : Nat) (x : Text) :
    ∃ target : Target, target.Of v s p k fun c => .ok (c.word x) := by
  unfold Expr.Context.word
  split
  · exact ⟨.fixed _, fun _ _ _ _ => rfl⟩
  · split
    · exact ⟨.fixed _, fun _ _ _ _ => rfl⟩
    · split
      · exact ⟨.fixed _, fun _ _ _ _ => rfl⟩
      · exact exists_target_symbol s p k x

theorem exists_target_walk (s : SymbolTable) (p : Position) (k : Nat) (signs : Text) :
    ∃ target : Target, target.Of v s p k fun c => .ok (.address? (c.walk? signs)) := by
  cases hw : s.walkLabel? p.root signs with
  | none =>
    refine ⟨.fixed (.ok (.address? none)), fun t q es h => ?_⟩
    have hp := SymbolTable.walkLabel?_of_skeleton h.skeleton p.root signs
    have hn : t.walkLabel? p.root signs = none := by simpa [hw] using hp
    simp only [Target.Answers, SymbolTable.walk?_eq, h.root]
    rw [hn]
    rfl
  | some l =>
    refine ⟨.entry l.position, fun t q es h => ?_⟩
    have hp := SymbolTable.walkLabel?_of_skeleton h.skeleton p.root signs
    rw [hw] at hp
    obtain ⟨m, hm, hpos⟩ := Option.map_eq_some_iff.mp hp
    obtain ⟨e, hget, -, ha⟩ := h.laid.anonymous m (SymbolTable.mem_of_walkLabel? hm)
    rw [hpos] at hget
    refine ⟨e, Result.address? (some m.address), hget, ?_, rfl, rfl, ha.symm⟩
    simp only [SymbolTable.walk?_eq, h.root]
    rw [hm]
    rfl

/-- Without plugins every token has a target. -/
theorem exists_target (hv : v.hooks.plugins = []) (s : SymbolTable) (p : Position) (k : Nat)
    (x : Text) : ∃ target : Target, target.Of v s p k fun c => c.token x := by
  obtain ⟨kind, hk⟩ := Expr.exists_reading x
  have hval : v.hooks.value? x = none := by simp [Hooks.value?, hv]
  have hread (t : SymbolTable) (q : Position) :
      (v.context t q).token x = (v.context t q).read x kind := hk _ hval
  simp only [Target.Of, hread]
  cases kind with
  | fixed value => exact ⟨.fixed (.ok (.ofWord? value)), fun _ _ _ _ => rfl⟩
  | braces inner => exact ⟨.fixed ((v.literal inner).map .ofWord?), fun _ _ _ _ => rfl⟩
  | name => exact exists_target_symbol s p k x
  | here =>
    refine ⟨.entry k, fun t q es h => ?_⟩
    obtain ⟨e, he, ha⟩ := h.here
    exact ⟨e, _, he, rfl, rfl, rfl, ha.symm⟩
  | walk signs => exact exists_target_walk s p k signs
  | word => exact exists_target_word s p k x

end Targets

section Lengths

/-- The words of the literal of operand A, if it is not packed. -/
def Body.literalWords : Body → Nat
  | .instruction i => i.a.literal.toList.length
  | _ => 0

/-- The words that do not depend on the form of literals. -/
def Body.otherWords (address : Word) : Body → Nat
  | .instruction i => 1 + (i.b.toList.flatMap Operand.trailing).length
  | b => b.length address

def Body.packs : Body → Bool
  | .instruction i => i.packed
  | _ => false

/-- The literal of operand A, if it is of the kind that can be packed. -/
def Body.packable? : Body → Option Text
  | .instruction i => if i.a.code = nextWordCode then i.a.literal.map Literal.text else none
  | _ => none

namespace Body

variable {b : Body}

theorem literalWords_le_one (b : Body) : b.literalWords ≤ 1 := by
  cases b with
  | instruction i => cases h : i.a.literal <;> simp [literalWords, h]
  | _ => exact Nat.zero_le 1

theorem length_eq (address : Word) (b : Body) :
    b.length address = b.otherWords address + if b.packs then 0 else b.literalWords := by
  cases b with
  | instruction i =>
    have ht : i.a.trailing.length = i.a.literal.toList.length := List.length_map ..
    by_cases hp : i.packed = true
    · rw [if_pos (show (instruction i).packs = true from hp)]
      simp only [length, output, Instruction.encode, hp, if_true, otherWords, List.nil_append,
        List.length_cons]
      omega
    · rw [if_neg (show ¬(instruction i).packs = true from hp)]
      simp only [length, output, Instruction.encode, if_neg hp, otherWords, literalWords,
        List.length_cons, List.length_append]
      omega
  | _ => simp [otherWords, packs, literalWords]

theorem literalWords_skeleton (b : Body) : b.skeleton.literalWords = b.literalWords := by
  cases b with
  | instruction i =>
    cases h : i.a.literal <;>
      simp [skeleton, literalWords, Instruction.skeleton, Operand.skeleton, h]
  | _ => rfl

theorem otherWords_skeleton (address : Word) (b : Body) :
    b.skeleton.otherWords address = b.otherWords address := by
  cases b with
  | data cells => simp [skeleton, otherWords, length, output]
  | instruction i =>
    have ht (o : Operand) : o.skeleton.trailing.length = o.trailing.length := by
      cases h : o.literal <;> simp [Operand.trailing, Operand.skeleton, h]
    cases h : i.b <;> simp [skeleton, otherWords, Instruction.skeleton, h, ht]
  | _ => rfl

theorem packable?_skeleton (b : Body) : b.skeleton.packable? = b.packable? := by
  cases b with
  | instruction i =>
    cases h : i.a.literal <;>
      simp [skeleton, packable?, Instruction.skeleton, Operand.skeleton, h]
  | _ => rfl

theorem isVariable_skeleton (b : Body) : b.skeleton.isVariable = b.isVariable := by
  cases b <;> rfl

theorem isVariable_of_packs (h : b.packs = true) : b.isVariable = true := by
  cases b with
  | instruction i => rfl
  | _ => nomatch h

theorem skeleton_eq_origin : b.skeleton = .origin ↔ b = .origin := by
  cases b <;> simp [skeleton]

theorem skeleton_eq_align {target : Word} : b.skeleton = .align target ↔ b = .align target := by
  cases b <;> simp [skeleton]

theorem otherWords_eq_of_not_align (hb : ∀ target, b ≠ .align target) (w w' : Word) :
    b.otherWords w = b.otherWords w' := by
  cases b with
  | align target => exact absurd rfl (hb target)
  | _ => rfl

end Body

namespace Entry

variable {e e' : Entry}

def packs (e : Entry) : Bool := e.body.packs

/-- The number behind the address of the last word. -/
def reach (e : Entry) : Nat := e.address.toNat + e.length

/-- The same entry in another layout. Origins do not move. -/
structure Variant (e e' : Entry) : Prop where
  skeleton : e'.skeleton = e.skeleton
  origin : e.body = .origin → e'.address = e.address

theorem Variant.body (h : e.Variant e') : e'.body.skeleton = e.body.skeleton :=
  congrArg Entry.body h.skeleton

theorem Variant.root (h : e.Variant e') : e'.root = e.root := by
  have hr : e'.skeleton.root = e.skeleton.root := congrArg Entry.root h.skeleton
  exact hr

theorem Variant.scope (h : e.Variant e') : e'.scope = e.scope := by
  have hs : e'.skeleton.scope = e.skeleton.scope := congrArg Entry.scope h.skeleton
  exact hs

theorem Variant.origin_iff (h : e.Variant e') : e'.body = .origin ↔ e.body = .origin := by
  rw [← Body.skeleton_eq_origin, h.body, Body.skeleton_eq_origin]

theorem Variant.symm (h : e.Variant e') : e'.Variant e :=
  ⟨h.skeleton.symm, fun ho => (h.origin (h.origin_iff.mp ho)).symm⟩

theorem Variant.trans {e'' : Entry} (h : e.Variant e') (h' : e'.Variant e'') : e.Variant e'' :=
  ⟨h'.skeleton.trans h.skeleton, fun ho => (h'.origin (h.origin_iff.mpr ho)).trans (h.origin ho)⟩

theorem Variant.align_iff (h : e.Variant e') {target : Word} :
    e'.body = .align target ↔ e.body = .align target := by
  rw [← Body.skeleton_eq_align, h.body, Body.skeleton_eq_align]

theorem Variant.isVariable_eq (h : e.Variant e') : e'.body.isVariable = e.body.isVariable := by
  rw [← Body.isVariable_skeleton, h.body, Body.isVariable_skeleton]

theorem Variant.packable?_eq (h : e.Variant e') : e'.body.packable? = e.body.packable? := by
  rw [← Body.packable?_skeleton, h.body, Body.packable?_skeleton]

theorem variant_shiftClosed : ShiftClosed Variant where
  refl _ := ⟨rfl, fun _ => rfl⟩
  move _ _ ho _ := ⟨rfl, fun ho' => absurd ho' ho⟩
  realign e target delta ha := by
    refine ⟨?_, fun ho => ?_⟩
    · rw [realign_eq]
      rfl
    · simp [ha] at ho

theorem refresh_variant {v : Session} {s t : SymbolTable} {long : Bool}
    (hv : e.body.isVariable = true) (h : e.refresh v s long = .ok (e', t)) : e.Variant e' := by
  refine ⟨refresh_skeleton h, fun ho => ?_⟩
  simp [ho, Body.isVariable] at hv

/-- Two layouts of an entry differ in length only by the word of the literal. -/
theorem Variant.lengths (h : e.Variant e') (ho : e.own = none) (ho' : e'.own = none)
    (ha : ∀ target, e.body ≠ .align target) :
    ∃ n m, m ≤ 1 ∧ e.length = n + (if e.packs then 0 else m) ∧
      e'.length = n + (if e'.packs then 0 else m) := by
  have hl : e'.body.literalWords = e.body.literalWords := by
    rw [← Body.literalWords_skeleton, h.body, Body.literalWords_skeleton]
  have hw : e'.body.otherWords e'.address = e.body.otherWords e.address := by
    rw [← Body.otherWords_skeleton, h.body, Body.otherWords_skeleton]
    exact Body.otherWords_eq_of_not_align ha ..
  refine ⟨_, _, e.body.literalWords_le_one, (length_of_own ho).trans (Body.length_eq ..), ?_⟩
  rw [length_of_own ho', Body.length_eq, hl, hw]
  rfl

theorem reach_of_align {target : Word} (ho : e.own = none) (h : e.body = .align target) :
    e.reach = max e.address.toNat target.toNat := by
  simp only [reach, length_of_own ho, h, Body.length]
  split
  next hle =>
    have hn : e.address.toNat ≤ target.toNat := hle
    rw [UInt16.toNat_sub_of_le _ _ hle]
    omega
  next hgt =>
    have hn : target.toNat < e.address.toNat := by
      rw [UInt16.not_le] at hgt
      exact hgt
    omega

end Entry

end Lengths

section Lists

variable {es es' : List Entry}

/-- The same entry in another layout, where its literal is packed if it was so before. -/
structure Entry.Shrinks (e e' : Entry) : Prop extends e.Variant e' where
  packed : e.packs = true → e'.packs = true

/-- The entry does not stand higher than before, nor does it reach further. -/
structure Entry.Sinks (e e' : Entry) : Prop where
  address : e'.address ≤ e.address
  reach : e'.reach ≤ e.reach

/-- All addresses are far enough from the end of memory. -/
def Low (es : List Entry) : Prop := ∀ e ∈ es, e.reach ≤ 0xFFFE

/-- No address is the last one, so one that is packed is so because it is small. -/
theorem Entry.address_le_of_low {e : Entry} (h : e.reach ≤ 0xFFFE)
    (hw : e.address ≤ 30 ∨ e.address = 0xFFFF) : e.address ≤ 30 := by
  rcases hw with hw | hw
  · exact hw
  · have hlast : e.address.toNat = 0xFFFF := by
      rw [hw]
      rfl
    simp only [reach] at h
    omega

/-- Each entry stands behind the one before it and the first one at `n`, but for origins, and no
address wraps. -/
def Stacked : Nat → List Entry → Prop
  | _, [] => True
  | n, e :: es => (e.body ≠ .origin → e.address.toNat = n) ∧ Stacked e.reach es

theorem Entry.toNat_behind {e : Entry} (h : e.reach ≤ 0xFFFE) : e.behind.toNat = e.reach := by
  rw [behind, size, toNat_add_ofNat]
  simp only [reach, Word.count] at h ⊢
  omega

theorem Chained.stacked {w : Word} (h : Chained w es) (hl : Low es) : Stacked w.toNat es := by
  induction es generalizing w with
  | nil => trivial
  | cons e es ih =>
    have hr : e.reach ≤ 0xFFFE := hl e List.mem_cons_self
    refine ⟨fun ho => by rw [h.1 ho], ?_⟩
    rw [← Entry.toNat_behind hr]
    exact ih h.2 fun f hf => hl f (List.mem_cons_of_mem e hf)

theorem Entry.Shrinks.length_le {e e' : Entry} (h : e.Shrinks e') (ho : e.own = none)
    (ho' : e'.own = none) (ha : ∀ target, e.body ≠ .align target) : e'.length ≤ e.length := by
  obtain ⟨n, m, -, hl, hl'⟩ := h.lengths ho ho' ha
  rw [hl, hl']
  cases hp : e.packs with
  | true => simp [h.packed hp]
  | false => split <;> simp

/-- An entry that is not taller reaches less far from a lower address, alignments included. -/
theorem Entry.Shrinks.sinks {e e' : Entry} (h : e.Shrinks e') (ho : e.own = none)
    (ho' : e'.own = none) (ha : e'.address ≤ e.address) : e.Sinks e' := by
  have hn : e'.address.toNat ≤ e.address.toNat := ha
  refine ⟨ha, ?_⟩
  by_cases hal : ∃ target, e.body = .align target
  · obtain ⟨target, hal⟩ := hal
    rw [reach_of_align ho hal, reach_of_align ho' (h.align_iff.mpr hal)]
    omega
  · have hl := h.length_le ho ho' fun target ht => hal ⟨target, ht⟩
    simp only [reach]
    omega

/-- Where entries shrink, all that follows sinks. -/
theorem sinks_of_shrinks (h : List.Forall₂ Entry.Shrinks es es') (ho : ∀ e ∈ es, e.own = none)
    (ho' : ∀ e ∈ es', e.own = none) {n : Nat} {w : Word} (hs : Stacked n es) (hl : Low es)
    (hc : Chained w es') (hw : w.toNat ≤ n) : List.Forall₂ Entry.Sinks es es' := by
  induction h generalizing n w with
  | nil => exact .nil
  | @cons e e' es es' he _ ih =>
    rw [List.forall_mem_cons] at ho ho'
    obtain ⟨hr, hl⟩ := List.forall_mem_cons.mp hl
    have ha : e'.address ≤ e.address := by
      by_cases ho : e.body = .origin
      · rw [he.origin ho]
        exact UInt16.le_refl _
      · rw [hc.1 fun ho' => ho (he.origin_iff.mp ho'), UInt16.le_iff_toNat_le, hs.1 ho]
        exact hw
    have hsink := he.sinks ho.1 ho'.1 ha
    have hbehind : e'.behind.toNat = e'.reach := Entry.toNat_behind (Nat.le_trans hsink.reach hr)
    refine .cons hsink (ih ho.2 ho'.2 hs.2 hl hc.2 ?_)
    rw [hbehind]
    exact hsink.reach

theorem Low.of_sinks (hl : Low es) (h : List.Forall₂ Entry.Sinks es es') : Low es' := by
  induction h with
  | nil => exact hl
  | @cons e e' es es' he _ ih =>
    intro f hf
    rcases List.mem_cons.mp hf with rfl | hf
    · exact Nat.le_trans he.reach (hl e List.mem_cons_self)
    · exact ih (fun g hg => hl g (List.mem_cons_of_mem e hg)) f hf

end Lists

namespace Layout

variable {v : Session} {l l' : Layout} {i k : Nat} {e e' : Entry}

/-- Another layout of the same program. -/
structure Variant (l l' : Layout) : Prop where
  entries : List.Forall₂ Entry.Variant l.entries.toList l'.entries.toList
  symbols : l'.symbols.skeleton = l.symbols.skeleton
  laid : WellLaid l'.entries.toList l'.symbols

theorem Variant.trans {m : Layout} (h : l.Variant l') (h' : l'.Variant m) : l.Variant m where
  entries := forall₂_trans (fun _ _ _ hv hv' => hv.trans hv') h.entries h'.entries
  symbols := h'.symbols.trans h.symbols
  laid := h'.laid

theorem Variant.refl (hw : WellLaid l.entries.toList l.symbols) : l.Variant l :=
  ⟨List.forall₂_same.mpr fun e _ => Entry.variant_shiftClosed.refl e, rfl, hw⟩

theorem Variant.relaid (h : l.Variant l') (he' : l'.entries[k]? = some e') (hv : e.Variant e') :
    Relaid l.symbols e.position k l'.symbols e'.position l'.entries.toList where
  skeleton := h.symbols
  laid := h.laid
  root := hv.root
  scope := hv.scope
  here := ⟨e', by simpa using he', rfl⟩

theorem relaid_self (hl : WellLaid l.entries.toList l.symbols) (he : l.entries[k]? = some e) :
    Relaid l.symbols e.position k l.symbols e.position l.entries.toList :=
  ⟨rfl, hl, rfl, rfl, e, by simpa using he, rfl⟩

theorem replace_skeleton (l : Layout) (i : Nat) (old new : Entry) :
    (l.replace i old new).symbols.skeleton = l.symbols.skeleton := by
  obtain ⟨f, hf⟩ := l.shifted_movedBy i old new
  rw [replace_symbols, hf.symbols, SymbolTable.skeleton_shiftBy]

theorem replace_variant {old new : Entry} (h : l.entries[i]? = some old)
    (hv : old.body.isVariable = true) (hn : old.Variant new) (hu : old.Updates new)
    (ha : new.address = old.address) (hw : WellLaid l.entries.toList l.symbols) :
    l.Variant (l.replace i old new) where
  entries := replace_forall₂ Entry.variant_shiftClosed h hn
  symbols := l.replace_skeleton i old new
  laid := hw.of_gaps (replace_forall₂ Entry.updates_shiftClosed h hu)
    (replace_gaps h hv (hn.isVariable_eq.trans hv) ha 0) (replace_labelled new h hv hw.toLabelled)

theorem refreshAt_variant (h : l.refreshAt v i = .ok l')
    (hw : WellLaid l.entries.toList l.symbols) : l.Variant l' := by
  have hrefl := Variant.refl hw
  have hlaid := refreshAt_wellLaid h hw
  obtain ⟨-, rfl⟩ | ⟨e, -, -, rfl⟩ | ⟨e, new, s, he, hv, hr, rfl⟩ := refreshAt_cases h
  · exact hrefl
  · exact ⟨hrefl.entries, hrefl.symbols, hrefl.laid⟩
  · have hm := (Entry.refresh_cases hv hr).2.2
    exact ⟨replace_forall₂ (l := { l with symbols := s }) Entry.variant_shiftClosed he
      (Entry.refresh_variant hv hr), (replace_skeleton ..).trans hm.skeleton_eq, hlaid⟩

end Layout

end Dcpu
