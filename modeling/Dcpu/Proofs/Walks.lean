import Dcpu.Proofs.LineEntries
import Dcpu.Proofs.Variants
import Mathlib.Data.List.TakeWhile
import Mathlib.Data.Option.Basic

/-! Walks to anonymous labels. The table keeps them by line numbers and moves them by their places
in the listing; the two orders are the same, so signs after a `$` count entries of the listing. -/
namespace Dcpu
open Answer

/-- What of an entry matters for walks: its line number, whether it binds an anonymous label, and
whether it has expressions. -/
structure LineMark where
  root : Nat
  labels : Bool
  reads : Bool

/-- Nothing that comes earlier has a higher line number than an expression, or as high a one as an
anonymous label. -/
def LineMark.Precedes (m n : LineMark) : Prop :=
  (n.reads = true → m.root ≤ n.root) ∧ (n.labels = true → m.root < n.root)

/-- The line numbers and the places of anonymous labels in the order of the listing. -/
def labelled (ms : List LineMark) : List (Nat × Nat) :=
  (ms.zipIdx.filter fun p => p.1.labels).map fun p => (p.1.root, p.2)

namespace Entry

variable {e e' : Entry}

def lineMark (e : Entry) : LineMark := ⟨e.root, e.isAnonymousLabel, !e.body.texts.isEmpty⟩

theorem isAnonymousLabel_of_ne_blank (h : e.body ≠ .blank) : e.isAnonymousLabel = false := by
  simp [isAnonymousLabel, h]

/-- An entry with expressions does not bind a label. -/
theorem isAnonymousLabel_of_texts (h : e.body.texts ≠ []) : e.isAnonymousLabel = false := by
  apply isAnonymousLabel_of_ne_blank
  intro hb
  rw [hb] at h
  exact h rfl

theorem ne_blank_of_isVariable (h : e.body.isVariable = true) : e.body ≠ .blank := by
  intro hb
  simp [hb, Body.blank, Body.isVariable] at h

theorem lineMark_of_skeleton (hs : e'.skeleton = e.skeleton)
    (hl : e'.isAnonymousLabel = e.isAnonymousLabel) : e'.lineMark = e.lineMark := by
  have hr : e'.root = e.root := by simpa [skeleton] using congrArg Entry.root hs
  rw [lineMark, hr, hl, texts_of_skeleton hs, lineMark]

theorem lineMark_shiftClosed : ShiftClosed fun e e' => e'.lineMark = e.lineMark where
  refl _ := rfl
  move _ _ _ _ := rfl
  realign e target delta ha := by
    have hb : (e.realign target delta).body = e.body := by rw [realign_eq]
    apply lineMark_of_skeleton (Layout.skeleton_shiftClosed.realign e target delta ha)
    rw [isAnonymousLabel_of_ne_blank, isAnonymousLabel_of_ne_blank]
    · simp [ha, Body.blank]
    · simp [hb, ha, Body.blank]

end Entry

theorem labelled_append (ms ns : List LineMark) :
    labelled (ms ++ ns) = labelled ms ++
      ((ns.zipIdx ms.length).filter fun p => p.1.labels).map fun p => (p.1.root, p.2) := by
  simp [labelled, List.zipIdx_append]

theorem labelled_append_of_none {ms ns : List LineMark} (h : ∀ n ∈ ns, n.labels = false) :
    labelled (ms ++ ns) = labelled ms := by
  have hn : ((ns.zipIdx ms.length).filter fun p => p.1.labels) = [] := by
    rw [List.filter_eq_nil_iff]
    intro p hp
    simp [h p.1 (List.fst_mem_of_mem_zipIdx hp)]
  rw [labelled_append, hn, List.map_nil, List.append_nil]

theorem exists_of_mem_labelled {ms : List LineMark} {p : Nat × Nat} (h : p ∈ labelled ms) :
    ∃ m ∈ ms, m.root = p.1 := by
  obtain ⟨q, hq, rfl⟩ := List.mem_map.mp h
  exact ⟨q.1, List.fst_mem_of_mem_zipIdx (List.mem_of_mem_filter hq), rfl⟩

theorem labelled_lineMarks (es : List Entry) : labelled (es.map Entry.lineMark) =
    (es.zipIdx.filter fun p => p.1.isAnonymousLabel).map fun p => (p.1.root, p.2) := by
  rw [labelled, List.zipIdx_map, List.filter_map, List.map_map]
  rfl

theorem filter_eq_map_zipIdx (es : List Entry) : es.filter Entry.isAnonymousLabel =
    (es.zipIdx.filter fun p => p.1.isAnonymousLabel).map Prod.fst := by
  have hf := List.filter_map (f := Prod.fst) (p := Entry.isAnonymousLabel) (l := es.zipIdx)
  rw [List.zipIdx_map_fst] at hf
  exact hf

/-- The entries of the listing come in the order of their lines, and the anonymous labels of the
table are those of the listing, the last one first. -/
structure InOrder (es : List Entry) (s : SymbolTable) : Prop where
  order : (es.map Entry.lineMark).Pairwise LineMark.Precedes
  labels : s.anonymous.map (fun l => (l.root, l.position)) =
    (labelled (es.map Entry.lineMark)).reverse

theorem AnonymousLabel.insert_of_root_lt {l : AnonymousLabel} {ls : List AnonymousLabel}
    (h : ∀ m ∈ ls, m.root < l.root) : insert l ls = l :: ls := by
  cases ls with
  | nil => rfl
  | cons m ms => rw [insert, if_pos (h m List.mem_cons_self)]

namespace InOrder

variable {es new : List Entry} {s t : SymbolTable} {root : Nat} {e : Entry}

theorem append (h : InOrder es s) (hs : t.anonymous = s.anonymous)
    (hle : ∀ e ∈ es, e.root ≤ root) (hnew : ∀ e ∈ new, e.Follows root) :
    InOrder (es ++ new) t := by
  have hreads {f : Entry} (hf : f ∈ new) (hr : f.lineMark.reads = true) : f.root = root := by
    apply (hnew f hf).root_eq
    simpa [Entry.lineMark] using hr
  have hpre {e f : Entry} (he : e.root ≤ root) (hf : f ∈ new) :
      e.lineMark.Precedes f.lineMark := by
    constructor
    · intro hr
      have hroot := hreads hf hr
      show e.root ≤ f.root
      omega
    · intro hl
      have hn : f.lineMark.labels = false := (hnew f hf).label
      rw [hn] at hl
      cases hl
  constructor
  · rw [List.map_append, List.pairwise_append]
    refine ⟨h.order, ?_, ?_⟩
    · rw [List.pairwise_map]
      exact List.pairwise_of_forall_mem_list fun e he f hf => hpre (hnew e he).root_le hf
    · simp only [List.mem_map]
      rintro _ ⟨e, he, rfl⟩ _ ⟨f, hf, rfl⟩
      exact hpre (hle e he) hf
  · rw [hs, h.labels, List.map_append, labelled_append_of_none]
    simp only [List.mem_map]
    rintro _ ⟨f, hf, rfl⟩
    exact (hnew f hf).label

/-- An anonymous label on a new line goes to the front of the table. -/
theorem bind (h : InOrder es s) (hlt : ∀ e ∈ es, e.root < root) (hr : e.root = root)
    (he : e.isAnonymousLabel = true) (address : Word) :
    InOrder (es ++ [e]) (s.defineAnonymous root address es.length) := by
  constructor
  · rw [List.map_append, List.pairwise_append]
    refine ⟨h.order, List.pairwise_singleton .., ?_⟩
    simp only [List.mem_map, List.map_cons, List.map_nil, List.mem_singleton]
    rintro _ ⟨f, hf, rfl⟩ _ rfl
    have hroot : f.root < e.root := by rw [hr]; exact hlt f hf
    exact ⟨fun _ => hroot.le, fun _ => hroot⟩
  · have hfront : ∀ l ∈ s.anonymous, l.root < root := by
      intro l hl
      have hmem : (l.root, l.position) ∈ (labelled (es.map Entry.lineMark)).reverse := by
        rw [← h.labels]
        exact List.mem_map_of_mem hl
      obtain ⟨m, hm, hroot⟩ := exists_of_mem_labelled (List.mem_reverse.mp hmem)
      obtain ⟨f, hf, rfl⟩ := List.mem_map.mp hm
      have heq : f.root = l.root := hroot
      have hbelow := hlt f hf
      omega
    have hlast : ((([e].map Entry.lineMark).zipIdx (es.map Entry.lineMark).length).filter
        fun p => p.1.labels) = [(e.lineMark, es.length)] := by
      simp [Entry.lineMark, he]
    rw [SymbolTable.defineAnonymous, AnonymousLabel.insert_of_root_lt hfront, List.map_append,
      labelled_append, hlast, List.reverse_append, List.map_cons, h.labels]
    simp [Entry.lineMark, hr]

theorem congr {fs : List Entry} (h : InOrder es s)
    (he : fs.map Entry.lineMark = es.map Entry.lineMark) (hs : t.skeleton = s.skeleton) :
    InOrder fs t := by
  have hroots (u : SymbolTable) : u.anonymous.map (fun l => (l.root, l.position)) =
      u.skeleton.anonymous.map fun l => (l.root, l.position) := by
    simp [SymbolTable.skeleton]
  constructor
  · rw [he]
    exact h.order
  · rw [hroots, hs, ← hroots, h.labels, he]

/-- The table has the line numbers and the addresses of the entries of anonymous labels. -/
theorem roots_eq (h : InOrder es s) : s.anonymous.map AnonymousLabel.root =
    ((es.filter Entry.isAnonymousLabel).map Entry.root).reverse := by
  have hl := congrArg (List.map Prod.fst) h.labels
  rw [labelled_lineMarks, List.map_map, List.map_reverse, List.map_map] at hl
  rw [filter_eq_map_zipIdx, List.map_map]
  exact hl

theorem addresses_eq (h : InOrder es s)
    (hp : ∀ l ∈ s.anonymous, ∃ e, es[l.position]? = some e ∧ l.address = e.address) :
    s.anonymous.map AnonymousLabel.address =
      ((es.filter Entry.isAnonymousLabel).map Entry.address).reverse := by
  have hl := congrArg (List.map fun p : Nat × Nat => es[p.2]?.map Entry.address) h.labels
  rw [labelled_lineMarks, List.map_map, List.map_reverse, List.map_map] at hl
  have hs : s.anonymous.map (fun l => es[l.position]?.map Entry.address) =
      (s.anonymous.map AnonymousLabel.address).map some := by
    rw [List.map_map]
    apply List.map_congr_left
    intro l hm
    obtain ⟨e, he, ha⟩ := hp l hm
    simp [he, ha]
  have he : (es.zipIdx.filter fun p => p.1.isAnonymousLabel).map
        (fun p => es[p.2]?.map Entry.address) =
      ((es.filter Entry.isAnonymousLabel).map Entry.address).map some := by
    rw [filter_eq_map_zipIdx, List.map_map, List.map_map]
    apply List.map_congr_left
    intro p hm
    have hget := List.mem_zipIdx_iff_getElem?.mp (List.mem_of_mem_filter hm)
    simp [hget]
  apply List.map_injective_iff.mpr (Option.some_injective Word)
  rw [← hs, List.map_reverse, ← he]
  exact hl

end InOrder

namespace Draft

variable {v : Session} {d d' : Draft} {line : SourceLine}

/-- The listing is in order, and none of its line numbers is ahead of the line that was read. -/
structure Ordered (d : Draft) : Prop where
  inOrder : InOrder d.entries.toList d.symbols
  root_le : ∀ e ∈ d.entries.toList, e.root ≤ d.feed.root

theorem Ordered.lists (hd : d.Ordered) (h : d.Lists d.feed.root d') : d'.Ordered := by
  obtain ⟨es, he, hes⟩ := h.entries
  constructor
  · rw [he]
    exact hd.inOrder.append h.anonymous hd.root_le hes
  · rw [he]
    intro e hm
    rcases List.mem_append.mp hm with hm | hm
    · exact (hd.root_le e hm).trans h.feed
    · exact (hes e hm).root_le.trans h.feed

theorem Ordered.bindAnonymous {code : Text} (hd : d.Ordered)
    (hlt : ∀ e ∈ d.entries.toList, e.root < d.feed.root) (hr : line.root = d.feed.root)
    (hpos : 0 < d.feed.root) (hcode : isAnonymousMark code = true) :
    (d.bindAnonymous line code).Ordered := by
  unfold Draft.bindAnonymous
  obtain ⟨c, hp⟩ := ({ d with
    symbols := d.symbols.defineAnonymous line.root d.address d.entries.size } : Draft).push_eq
      (d.entry line code)
  rw [hp]
  have hlabel : ({ d.entry line code with caution := c } : Entry).isAnonymousLabel = true := by
    have hne : line.root ≠ 0 := by omega
    simp [Entry.isAnonymousLabel, entry, hne, hcode]
  constructor
  · rw [Array.toList_push]
    refine hd.inOrder.bind ?_ rfl hlabel d.address
    intro e he
    have hbelow := hlt e he
    show e.root < line.root
    omega
  · rw [Array.toList_push]
    intro e hm
    rcases List.mem_append.mp hm with hm | hm
    · exact hd.root_le e hm
    · obtain rfl := List.mem_singleton.mp hm
      exact hr.le

theorem Ordered.readsLine (hv : v.hooks.plugins = []) (hd : d.Ordered) (h : d.ReadsLine v d') :
    d'.Ordered := by
  obtain ⟨line, feed, hn, hl⟩ := h
  obtain ⟨hr, hroot⟩ := Feed.next?_root hn
  -- The number of a new line is ahead of all others, whichever frame the line is from.
  have hlt : ∀ e ∈ d.entries.toList, e.root < feed.root := by
    intro e he
    have hle := hd.root_le e he
    omega
  have hfed : ({ d with feed := feed } : Draft).Ordered :=
    ⟨hd.inOrder, fun e he => (hlt e he).le⟩
  rcases line_lists hv hl with hlists | ⟨code, hcode, hlists⟩
  · rw [hr] at hlists
    exact hfed.lists hlists
  · have hpos : 0 < feed.root := by omega
    have hbound := hfed.bindAnonymous hlt hr hpos hcode
    rw [hr] at hlists
    exact hbound.lists hlists

theorem Ordered.reads (hv : v.hooks.plugins = []) (hd : d.Ordered)
    (h : Relation.ReflTransGen (ReadsLine v) d d') : d'.Ordered := by
  induction h with
  | refl => exact hd
  | tail _ hline ih => exact ih.readsLine hv hline

theorem ordered_of_readAll {steps : Nat} {file source : Text} (hv : v.hooks.plugins = [])
    (hs : v.symbols.OnlyEquates) (h : (v.start file source).readAll v steps = .ok d) :
    d.Ordered := by
  have hstart : (v.start file source).Ordered := by
    constructor
    · exact ⟨by simp [Session.start], by simp [Session.start, hs.2, labelled]⟩
    · simp [Session.start]
  exact hstart.reads hv (readAll_reads h).1

end Draft

namespace Layout

variable {v : Session} {l l' : Layout} {i : Nat}

theorem refreshAt_lineMarks (h : l.refreshAt v i = .ok l') :
    l'.entries.toList.map Entry.lineMark = l.entries.toList.map Entry.lineMark := by
  have hs := refreshAt_forall₂ Entry.lineMark_shiftClosed h fun e new s _ hv hr => by
    obtain ⟨-, hb, -⟩ := Entry.refresh_cases hv hr
    apply Entry.lineMark_of_skeleton (Entry.refresh_skeleton hr)
    rw [Entry.isAnonymousLabel_of_ne_blank (Entry.ne_blank_of_isVariable hb.isVariable),
      Entry.isAnonymousLabel_of_ne_blank (Entry.ne_blank_of_isVariable hv)]
  have heq : List.Forall₂ Eq (l'.entries.toList.map Entry.lineMark)
      (l.entries.toList.map Entry.lineMark) :=
    List.forall₂_map_left_iff.mpr (List.forall₂_map_right_iff.mpr hs.flip)
  rwa [List.forall₂_eq_eq_eq] at heq

theorem Passes.inOrder (h : Passes v l l') (hw : WellLaid l.entries.toList l.symbols)
    (ho : InOrder l.entries.toList l.symbols) : InOrder l'.entries.toList l'.symbols := by
  have hboth := h.keeps (P := fun es s => WellLaid es.toList s ∧ InOrder es.toList s)
    (fun k i k' hr hk => ⟨refreshAt_wellLaid hr hk.1,
      hk.2.congr (refreshAt_lineMarks hr) (refreshAt_variant hr hk.1).symbols⟩) ⟨hw, ho⟩
  exact hboth.2

end Layout

namespace Expr

theorem group?_eq_none_of_not_mem {t : Text} (h : '(' ∉ t) : group? t = none := by
  cases hg : group? t with
  | none => rfl
  | some g =>
    rw [← text_of_group? hg] at h
    simp [Group.text] at h

section Signs

variable {signs : Text} (h : ∀ c ∈ signs, isSign c = true)
include h

theorem walkLength_signs : walkLength (Text.freed signs) = signs.length := by
  have hrun : (Text.freed signs).takeWhile (fun m => isSign m.char) = Text.freed signs := by
    rw [List.takeWhile_eq_self_iff]
    intro m hm
    obtain ⟨c, hc, rfl⟩ := List.mem_map.mp hm
    exact h c hc
  simp only [walkLength, hrun, List.drop_length]
  simp [Text.freed]

theorem marked_walk : Text.marked ('$' :: signs) = Text.freed ('$' :: signs) := by
  have hunquoted : ∀ c ∈ '$' :: signs, c ≠ '"' ∧ c ≠ '\'' := by
    intro c hc
    rcases List.mem_cons.mp hc with rfl | hc
    · exact ⟨by decide, by decide⟩
    · have hsign := h c hc
      simp only [isSign, Bool.or_eq_true, beq_iff_eq] at hsign
      rcases hsign with rfl | rfl
      · exact ⟨by decide, by decide⟩
      · exact ⟨by decide, by decide⟩
  have hfree : Text.marked ('$' :: signs ++ []) = Text.freed ('$' :: signs) ++ Text.marked [] :=
    Text.marked_append_of_free hunquoted
  have hnil : Text.marked [] = [] := rfl
  rwa [List.append_nil, hnil, List.append_nil] at hfree

omit h in
theorem sitesFrom_skip (t : Text) : sitesFrom 0 t.length (Text.freed t) = Text.quoted t := by
  induction t with
  | nil => rfl
  | cons c t ih =>
    simp only [Text.freed, Text.quoted] at ih
    simp [Text.freed, Text.quoted, sitesFrom, ih]

/-- The signs after a `$` are no operators. -/
theorem form_walk (hne : signs ≠ []) : form ('$' :: signs) = .token ('$' :: signs) := by
  have hsites : sites ('$' :: signs) = Text.quoted ('$' :: signs) := by
    have hskip : sitesFrom 0 (walkLength (Text.freed signs)) (Text.freed signs) =
        Text.quoted signs := by
      rw [walkLength_signs h, sitesFrom_skip]
    rw [sites, marked_walk h]
    exact congrArg (⟨'$', false⟩ :: ·) hskip
  have hsign {c : Char} (hc : isSign c = true) : c ≠ '(' ∧ Text.isBlank c = false := by
    simp only [isSign, Bool.or_eq_true, beq_iff_eq] at hc
    rcases hc with rfl | rfl
    · exact ⟨by decide, by decide⟩
    · exact ⟨by decide, by decide⟩
  apply form_token
  · apply Text.trim_eq_self
    · intro c hc
      obtain rfl := Option.some.inj hc
      decide
    · intro c hc
      rw [List.getLast?_cons_of_ne_nil hne] at hc
      exact (hsign (h c (List.mem_of_getLast? hc))).2
  · apply group?_eq_none_of_not_mem
    intro hm
    rcases List.mem_cons.mp hm with hm | hm
    · cases hm
    · exact (hsign (h '(' hm)).1 rfl
  · exact List.cons_ne_nil _ _
  · intro hc
    cases hc
  · apply split?_eq_none
    intro op
    rw [hsites, siteOf?_quoted]

end Signs

end Expr

theorem Result.resolved?_address? (w : Option Word) : (Result.address? w).resolved? = w := by
  cases w <;> rfl

theorem Session.eval_walk {v : Session} (hv : v.hooks.plugins = []) (s : SymbolTable) (p : Position)
    {signs : Text} (h : ∀ c ∈ signs, Expr.isSign c = true) (hne : signs ≠ []) :
    (Expr.eval (v.context s p) ('$' :: signs)).map Result.resolved? =
      .ok ((v.context s p).walk? signs) := by
  have hnone : v.hooks.value? ('$' :: signs) = none := by simp [Hooks.value?, hv]
  cases signs with
  | nil => exact absurd rfl hne
  | cons c signs =>
    rw [Expr.eval_token (Expr.form_walk h hne)]
    simp only [Expr.Context.token, hnone]
    exact congrArg Except.ok (Result.resolved?_address? _)

namespace SymbolTable

variable {s : SymbolTable} {root : Nat} {before after : List Entry}
  (hroots : s.anonymous.map AnonymousLabel.root = ((before ++ after).map Entry.root).reverse)
  (haddresses : s.anonymous.map AnonymousLabel.address =
    ((before ++ after).map Entry.address).reverse)
  (hbefore : ∀ e ∈ before, e.root ≤ root) (hafter : ∀ e ∈ after, root < e.root)

include hroots hbefore hafter in
/-- The labels after a line are the first ones of the table. -/
theorem findIdx_root_le :
    s.anonymous.findIdx (fun l => decide (l.root ≤ root)) = after.length := by
  have hfirst : (after.map Entry.root).reverse.findIdx (fun r => decide (r ≤ root)) =
      after.length := by
    rw [List.findIdx_eq_length_of_false]
    · simp
    · intro r hr
      obtain ⟨e, he, rfl⟩ := List.mem_map.mp (List.mem_reverse.mp hr)
      have hlt := hafter e he
      simpa using hlt
  have hrest : (before.map Entry.root).reverse.findIdx (fun r => decide (r ≤ root)) = 0 := by
    cases hb : (before.map Entry.root).reverse with
    | nil => rfl
    | cons r rs =>
      have hmem : r ∈ (before.map Entry.root).reverse := by simp [hb]
      obtain ⟨e, he, rfl⟩ := List.mem_map.mp (List.mem_reverse.mp hmem)
      simp [List.findIdx_cons, hbefore e he]
  have hmap := List.findIdx_map s.anonymous AnonymousLabel.root fun r => decide (r ≤ root)
  rw [hroots, List.map_append, List.reverse_append, List.findIdx_append, hfirst, hrest] at hmap
  simpa [Function.comp_def] using hmap.symm

include hroots haddresses hbefore hafter

theorem forward?_eq (n : Nat) : s.forward? root (n + 1) = after[n]?.map Entry.address := by
  have hget (k : Nat) : s.anonymous[k]?.map AnonymousLabel.address =
      ((before ++ after).map Entry.address).reverse[k]? := by
    rw [← haddresses, List.getElem?_map]
  simp only [forward?, findIdx_root_le hroots hbefore hafter, hget]
  split
  next hn =>
    have hout : after.length ≤ n := by
      simp only [Bool.or_eq_true, decide_eq_true_eq] at hn
      omega
    rw [List.getElem?_eq_none hout]
    rfl
  next hn =>
    have hin : n < after.length := by
      simp only [Bool.or_eq_true, decide_eq_true_eq, not_or] at hn
      omega
    rw [List.getElem?_reverse (by simp; omega), List.getElem?_map]
    congr 1
    rw [List.length_map, List.length_append, List.getElem?_append_right (by omega)]
    congr 1
    omega

theorem backward?_eq (n : Nat) :
    s.backward? root (n + 1) = before.reverse[n]?.map Entry.address := by
  have hdrop : (s.anonymous.dropWhile fun l => decide (root < l.root)) =
      s.anonymous.drop after.length := by
    rw [List.dropWhile_eq_drop_findIdx_not, ← findIdx_root_le hroots hbefore hafter]
    congr 2
    funext l
    by_cases hl : root < l.root
    · simp [hl]
    · simp [hl, Nat.not_lt.mp hl]
  have hget : ((s.anonymous.drop after.length)[n]?).map AnonymousLabel.address =
      ((before ++ after).map Entry.address).reverse[after.length + n]? := by
    rw [List.getElem?_drop, ← haddresses, List.getElem?_map]
  simp only [backward?, Nat.succ_ne_zero, if_false, hdrop, Nat.add_sub_cancel, hget]
  rw [List.map_append, List.reverse_append, List.getElem?_append_right (by simp),
    ← List.map_reverse, List.getElem?_map]
  simp

end SymbolTable

namespace InOrder

variable {es : List Entry} {s : SymbolTable} {i k : Nat} {e f : Entry}

theorem around (h : InOrder es s) (he : es[i]? = some e) :
    (∀ f ∈ es.take i, f.lineMark.Precedes e.lineMark) ∧
      ∀ f ∈ es.drop (i + 1), e.lineMark.Precedes f.lineMark := by
  have hpairs := h.order
  rw [List.pairwise_map, eq_take_cons_drop he, List.pairwise_append, List.pairwise_cons] at hpairs
  obtain ⟨-, ⟨hafter, -⟩, hbefore⟩ := hpairs
  exact ⟨fun f hf => hbefore f hf e List.mem_cons_self, hafter⟩

theorem root_le_of_mem_take (h : InOrder es s) (he : es[i]? = some e) (ht : e.body.texts ≠ [])
    (hf : f ∈ es.take i) : f.root ≤ e.root :=
  ((h.around he).1 f hf).1 (by simpa [Entry.lineMark] using ht)

theorem root_lt_of_mem_drop (h : InOrder es s) (he : es[i]? = some e)
    (hf : f ∈ es.drop (i + 1)) (hl : f.isAnonymousLabel = true) : e.root < f.root :=
  ((h.around he).2 f hf).2 hl

/-- An anonymous label on the line of an expression is the last one before it. -/
theorem getLast?_of_root_eq (h : InOrder es s) (he : es[i]? = some e) (ht : e.body.texts ≠ [])
    (hf : es[k]? = some f) (hl : f.isAnonymousLabel = true) (hr : f.root = e.root) :
    ((es.take i).filter Entry.isAnonymousLabel).getLast? = some f := by
  -- A label behind the entry would have a line number of its own.
  have hk : k < i := by
    rcases Nat.lt_trichotomy k i with hk | rfl | hk
    · exact hk
    · obtain rfl := Option.some.inj (he.symm.trans hf)
      rw [Entry.isAnonymousLabel_of_texts ht] at hl
      cases hl
    · have hmem : f ∈ es.drop (i + 1) := by
        rw [List.mem_iff_getElem?]
        exact ⟨k - (i + 1), by rw [List.getElem?_drop, ← hf]; congr 1; omega⟩
      have hlt := h.root_lt_of_mem_drop he hmem hl
      omega
  have hget : (es.take i)[k]? = some f := by rw [List.getElem?_take_of_lt hk, hf]
  have hlast : ((es.take i).drop (k + 1)).filter Entry.isAnonymousLabel = [] := by
    rw [List.filter_eq_nil_iff]
    intro g hg hgl
    have hgk : g ∈ es.drop (k + 1) := by
      rw [List.drop_take] at hg
      exact List.mem_of_mem_take hg
    have hlt := h.root_lt_of_mem_drop hf hgk hgl
    have hle := h.root_le_of_mem_take he ht (List.mem_of_mem_drop hg)
    omega
  rw [eq_take_cons_drop hget, List.filter_append, List.filter_cons_of_pos hl, hlast]
  simp

end InOrder

/-- Signs after a `$` count the anonymous labels of the listing from the entry on: plus signs those
behind it, minus signs those before it, of which one on the same line is the first. There is no
value exactly if there are not as many. -/
theorem walk_follows_listing {v : Session} {steps : Nat} {file source : Text} {a : Assembly}
    (hv : v.hooks.plugins = []) (hs : v.symbols.OnlyEquates)
    (h : v.run steps file source = .ok a) {i : Nat} {e : Entry} (he : a.entries[i]? = some e)
    (ht : e.body.texts ≠ []) :
    (∀ n, (Expr.eval (v.context a.symbols e.position)
        ('$' :: List.replicate (n + 1) '+')).map Result.resolved? =
      .ok (((a.entries.drop (i + 1)).filter Entry.isAnonymousLabel)[n]?.map Entry.address)) ∧
    (∀ n, (Expr.eval (v.context a.symbols e.position)
        ('$' :: List.replicate (n + 1) '-')).map Result.resolved? =
      .ok (((a.entries.take i).filter Entry.isAnonymousLabel).reverse[n]?.map Entry.address)) ∧
    ∀ f ∈ a.entries, f.isAnonymousLabel = true → f.root = e.root →
      ((a.entries.take i).filter Entry.isAnonymousLabel).getLast? = some f := by
  obtain ⟨d, l, hd, hp, hentries, hsymbols, -⟩ := Session.run_passes h
  have hw := Draft.wellLaid_of_readAll hv hs hd
  have ho : InOrder a.entries a.symbols := by
    rw [hentries, hsymbols]
    exact hp.inOrder hw (Draft.ordered_of_readAll hv hs hd).inOrder
  -- Line numbers are the same as after the first pass. Addresses come from the last one.
  have hplaced : Placed a.entries a.symbols := by
    rw [hentries, hsymbols]
    exact (hp.wellLaid hw).chained.placed (hp.wellLaid hw).toLabelled
  have hsplit : a.entries.filter Entry.isAnonymousLabel =
      (a.entries.take i).filter Entry.isAnonymousLabel ++
        (a.entries.drop (i + 1)).filter Entry.isAnonymousLabel := by
    conv_lhs => rw [eq_take_cons_drop he]
    rw [List.filter_append, List.filter_cons_of_neg (by simp [Entry.isAnonymousLabel_of_texts ht])]
  have hroots := ho.roots_eq
  have haddresses := ho.addresses_eq hplaced.anonymous
  rw [hsplit] at hroots haddresses
  have hbefore : ∀ f ∈ (a.entries.take i).filter Entry.isAnonymousLabel, f.root ≤ e.root :=
    fun f hf => ho.root_le_of_mem_take he ht (List.mem_of_mem_filter hf)
  have hafter : ∀ f ∈ (a.entries.drop (i + 1)).filter Entry.isAnonymousLabel, e.root < f.root :=
    fun f hf => ho.root_lt_of_mem_drop he (List.mem_of_mem_filter hf) (List.mem_filter.mp hf).2
  refine ⟨fun n => ?_, fun n => ?_, fun f hf hl hr => ?_⟩
  · rw [Session.eval_walk hv a.symbols e.position (by simp [Expr.isSign]) (by simp),
      ← SymbolTable.forward?_eq hroots haddresses hbefore hafter n]
    simp [Expr.Context.walk?, Entry.position]
  · rw [Session.eval_walk hv a.symbols e.position (by simp [Expr.isSign]) (by simp),
      ← SymbolTable.backward?_eq hroots haddresses hbefore hafter n]
    simp [Expr.Context.walk?, Entry.position, List.replicate_succ]
  · obtain ⟨k, hk⟩ := List.mem_iff_getElem?.mp hf
    exact ho.getLast?_of_root_eq he ht hk hl hr

/-- Labels before, within and behind a macro call. The line of the label in the listing of the macro
itself does not count. -/
def walkProgram : Text :=
  (".macro mark(x)\n:$ DAT x, $+\n.endmacro\n:$ SET A, $-\nmark(end)\nSET B, $--\n" ++
    "$ :\n:end").toList

theorem walk_follows_listing_sample :
    ∃ (a : Assembly) (e : Entry), Session.bare.run 9 [] walkProgram = .ok a ∧
      a.entries[7]? = some e ∧ e.body.texts = ["end".toList, "$+".toList] ∧
      (Expr.eval (Session.bare.context a.symbols e.position) "$+".toList).map Result.resolved? =
        .ok (some 4) ∧
      (Expr.eval (Session.bare.context a.symbols e.position) "$++".toList).map Result.resolved? =
        .ok none ∧
      (Expr.eval (Session.bare.context a.symbols e.position) "$-".toList).map Result.resolved? =
        .ok (some 1) ∧
      (Expr.eval (Session.bare.context a.symbols e.position) "$--".toList).map Result.resolved? =
        .ok (some 0) ∧
      ∃ f ∈ a.entries, f.isAnonymousLabel = true ∧ f.root = e.root ∧
        ((a.entries.take 7).filter Entry.isAnonymousLabel).getLast? = some f := by
  obtain ⟨a, ha, hp⟩ := exists_ok (x := Session.bare.run 9 [] walkProgram)
    (p := fun a =>
      a.entries[7]?.any (fun e => e.body.texts == ["end".toList, "$+".toList] &&
        a.entries.any fun f => f.isAnonymousLabel && f.root == e.root) &&
      ((a.entries.drop 8).filter Entry.isAnonymousLabel).map Entry.address == [4] &&
      ((a.entries.take 7).filter Entry.isAnonymousLabel).map Entry.address == [0, 1])
    (by decide +kernel)
  simp only [Bool.and_eq_true, Option.any_eq_true, beq_iff_eq, List.any_eq_true] at hp
  obtain ⟨⟨⟨e, he, ht, f, hf, hl, hr⟩, hafter⟩, hbefore⟩ := hp
  obtain ⟨hplus, hminus, hown⟩ :=
    walk_follows_listing rfl ⟨rfl, rfl⟩ ha he (by rw [ht]; exact List.cons_ne_nil _ _)
  simp only [← List.getElem?_map, hafter] at hplus
  simp only [← List.getElem?_map, List.map_reverse, hbefore] at hminus
  exact ⟨a, e, ha, he, ht, hplus 0, hplus 1, hminus 0, hminus 1, f, hf, hl, hr, hown f hf hl hr⟩

end Dcpu
