import Dcpu.Proofs.MacroCalls

/-! Lines that are blank but for comments. Putting one of them anywhere into a program changes
nothing but the numbers of the lines that follow. -/
namespace Dcpu
open Answer

theorem Frame.drop_append (file : Text) (common after : List Text) (n k : Nat) :
    drop ⟨file, common ++ after, .counted n⟩ (common.length + k) =
      ⟨file, after.drop k, .counted (n + (common.length + k))⟩ := by
  unfold drop
  dsimp only
  rw [List.drop_length_add_append]
  rfl

namespace Feed

/-- The outermost frames have the same lines, comments and blanks apart. -/
def Even (file : Text) (fs fs' : List Frame) : Prop :=
  ∃ rest rest' n n', fs = [⟨file, rest, .counted n⟩] ∧ fs' = [⟨file, rest', .counted n'⟩] ∧
    rest'.map Text.clean = rest.map Text.clean

/-- The second of the outermost frames has a blank line more. -/
def Gapped (file : Text) (fs fs' : List Frame) : Prop :=
  ∃ common common' blank after after' n n', fs = [⟨file, common ++ after, .counted n⟩] ∧
    fs' = [⟨file, common' ++ blank :: after', .counted n'⟩] ∧
    common'.map Text.clean = common.map Text.clean ∧ Text.clean blank = [] ∧
    after'.map Text.clean = after.map Text.clean

/-- The blank line has been read in the second program only. -/
def Late (file : Text) (f f' : Feed) : Prop :=
  Even file f.frames f'.frames ∧ f'.root = f.root + 1

section Block

variable {rest rest' : List Text}

/-- A block is made of clean lines. -/
theorem block_congr (stop : Text → Bool) (h : rest'.map Text.clean = rest.map Text.clean) :
    blockBody stop rest' = blockBody stop rest ∧ blockEnd? stop rest' = blockEnd? stop rest ∧
      blockLength stop rest' = blockLength stop rest := by
  have hbody : blockBody stop rest' = blockBody stop rest := by
    unfold blockBody
    rw [h]
  have hend : blockEnd? stop rest' = blockEnd? stop rest := by
    unfold blockEnd?
    rw [h, hbody]
  refine ⟨hbody, hend, ?_⟩
  rw [blockLength, blockLength, hbody, hend]

theorem exists_clean_eq (h : rest'.map Text.clean = rest.map Text.clean) {t : Text}
    (ht : t ∈ rest') : ∃ u ∈ rest, Text.clean u = Text.clean t := by
  have hm : Text.clean t ∈ rest'.map Text.clean := List.mem_map_of_mem ht
  rw [h] at hm
  exact List.mem_map.mp hm

theorem map_clean_drop (h : rest'.map Text.clean = rest.map Text.clean) (n : Nat) :
    (rest'.drop n).map Text.clean = (rest.drop n).map Text.clean := by
  rw [List.map_drop, List.map_drop, h]

end Block

theorem lockstep_even {p : Padding} (file : Text) : Lockstep p (Beside p (Even file)) := by
  refine Beside.lockstep ?_ ?_
  · rintro bs bs' ⟨rest, rest', n, n', rfl, rfl, -⟩
    rfl
  · rintro bs bs' r r' ⟨rest, rest', n, n', rfl, rfl, hrest⟩ hr
    cases rest with
    | nil =>
      obtain rfl := List.map_eq_nil_iff.mp hrest
      exact .none
    | cons t ts =>
      obtain ⟨t', ts', rfl, ht, hts⟩ := List.map_eq_cons_iff.mp hrest
      unfold SameNext
      rw [next?_cons, next?_cons]
      refine .some ⟨⟨ht, rfl, (hr 0).symm⟩, ⟨.base ⟨ts, ts', n + 1, n' + 1, rfl, rfl, hts⟩,
        ahead_add hr 1⟩, fun _ => ?_⟩
      obtain ⟨hbody, hend, -⟩ := block_congr Draft.endsTemplate hts
      refine .of_blocks hbody hend ⟨.base ?_, ahead_add (ahead_add hr 1) _⟩
      exact ⟨_, _, _, _, rfl, rfl, map_clean_drop hts _⟩

section Gap

variable {file blank : Text} {common common' after after' : List Text} {n n' r : Nat}
  (hcommon : common'.map Text.clean = common.map Text.clean) (hblank : Text.clean blank = [])
  (hafter : after'.map Text.clean = after.map Text.clean)

include hcommon hblank hafter

/-- A macro that ends before the blank line. -/
theorem Gapped.sameBlock (he : ∃ t ∈ common, Draft.endsTemplate (Text.clean t) = true) :
    SameBlock (Beside .none (Gapped file)) ⟨[⟨file, common ++ after, .counted n⟩], r⟩
      ⟨[⟨file, common' ++ blank :: after', .counted n'⟩], r⟩ := by
  have he' : ∃ t ∈ common', Draft.endsTemplate (Text.clean t) = true := by
    obtain ⟨t, ht, hs⟩ := he
    obtain ⟨u, hu, hc⟩ := exists_clean_eq hcommon.symm ht
    exact ⟨u, hu, hc ▸ hs⟩
  obtain ⟨hb, hend, hle⟩ := block_append he after
  obtain ⟨hb', hend', hle'⟩ := block_append he' (blank :: after')
  obtain ⟨hbody, hlast, hlen⟩ := block_congr Draft.endsTemplate hcommon
  have hlength : blockLength Draft.endsTemplate (common ++ after) =
      blockLength Draft.endsTemplate common := by rw [blockLength, blockLength, hb, hend]
  refine .of_blocks (hb'.trans (hbody.trans hb.symm)) (hend'.trans (hlast.trans hend.symm)) ?_
  dsimp only
  rw [hlen] at hle'
  rw [hlength]
  generalize blockLength Draft.endsTemplate common = k at hle hle' ⊢
  refine ⟨.base ⟨common.drop k, common'.drop k, blank, after, after', n + k, n' + k, ?_, ?_,
    map_clean_drop hcommon k, hblank, hafter⟩, fun _ => rfl⟩
  · rw [← List.drop_append_of_le_length hle]
    rfl
  · rw [← List.drop_append_of_le_length hle']
    rfl

/-- A macro that the blank line belongs to, which does not become a line of its body. -/
theorem Gapped.sameBlock_late (hn : ∀ t ∈ common, Draft.endsTemplate (Text.clean t) = false) :
    SameBlock (Late file) ⟨[⟨file, common ++ after, .counted n⟩], r⟩
      ⟨[⟨file, common' ++ blank :: after', .counted n'⟩], r⟩ := by
  have hn' : ∀ t ∈ common' ++ [blank], Draft.endsTemplate (Text.clean t) = false := by
    intro t ht
    rcases List.mem_append.mp ht with ht | ht
    · obtain ⟨u, hu, hc⟩ := exists_clean_eq hcommon ht
      rw [← hc]
      exact hn u hu
    · obtain rfl := List.mem_singleton.mp ht
      rw [hblank]
      rfl
  have hlen : common'.length = common.length := by
    simpa using congrArg List.length hcommon
  obtain ⟨hb, hend, hl⟩ := block_append_of_free hn after
  obtain ⟨hb', hend', hl'⟩ := block_append_of_free hn' after'
  obtain ⟨hbody, hlast, hlength⟩ := block_congr Draft.endsTemplate hafter
  rw [List.append_cons]
  refine ⟨?_, ?_, ?_, ?_⟩
  · rw [takeBlock_body, takeBlock_body]
    dsimp only
    rw [hb, hb', hbody, List.map_append, hcommon, List.filter_append, List.filter_append,
      List.filter_append]
    simp [hblank]
  · rw [takeBlock_last, takeBlock_last]
    dsimp only
    rw [hend, hend', hlast]
  · rw [takeBlock_feed, takeBlock_feed]
    dsimp only
    rw [hl, hl', hlength]
    generalize blockLength Draft.endsTemplate after = k
    rw [Frame.drop_append, Frame.drop_append]
    exact ⟨after.drop k, after'.drop k, _, _, rfl, rfl, map_clean_drop hafter k⟩
  · rw [takeBlock_feed, takeBlock_feed]
    dsimp only
    rw [hl, hl', hlength, List.length_append, List.length_singleton, hlen]
    omega

end Gap

theorem Gapped.paired {p : Padding} {file : Text} : Paired (Beside p (Gapped file)) := by
  refine Beside.paired ?_
  rintro bs bs' ⟨common, common', blank, after, after', n, n', rfl, rfl, -⟩
  rfl

/-- Before the blank line is reached, the next lines are the same. A macro that starts there ends
before the blank line or takes it up. -/
theorem Gapped.next {file : Text} {f f' : Feed} (h : Beside .none (Gapped file) f f') :
    (∃ blank after after' n n', Text.clean blank = [] ∧
      after'.map Text.clean = after.map Text.clean ∧
      f.next? = next? ⟨[⟨file, after, .counted n⟩], f.root⟩ ∧
      f'.next? = next? ⟨[⟨file, blank :: after', .counted n'⟩], f.root⟩) ∨
    ∃ l l' g g', f.next? = some (l, g) ∧ f'.next? = some (l', g') ∧ l.Twin .none l' ∧
      Beside .none (Gapped file) g g' ∧
      ((opensTemplate (afterLabel (Text.clean l.text)) = true →
          SameBlock (Beside .none (Gapped file)) g g') ∨ SameBlock (Late file) g g') := by
  obtain ⟨fs, r⟩ := f
  obtain ⟨fs', r'⟩ := f'
  obtain rfl : r = r' := Nat.add_right_cancel (h.ahead 0)
  rcases h.frames.dropWhile_cases with ⟨k, k', gs, gs', hk, hk', hne, ht, hs⟩ | ⟨bs, bs',
    ⟨common, common', blank, after, after', n, n', rfl, rfl, hcommon, hblank, hafter⟩, hd, hd'⟩
  · obtain ⟨l, l', g, g', hx, hx', hl, hg, hb⟩ := exists_next_of_twins hk hk' hne ht hs h.ahead
    exact .inr ⟨l, l', g, g', hx, hx', hl, hg, .inl fun _ => hb⟩
  · rw [next?_of_dropWhile hd, next?_of_dropWhile hd']
    cases common with
    | nil =>
      obtain rfl := List.map_eq_nil_iff.mp hcommon
      exact .inl ⟨blank, after, after', n, n', hblank, hafter, rfl, rfl⟩
    | cons t ts =>
      obtain ⟨t', ts', rfl, ht, hts⟩ := List.map_eq_cons_iff.mp hcommon
      refine .inr ⟨_, _, _, _, next?_cons .., next?_cons .., ⟨ht, rfl, rfl⟩, ⟨.base ?_, fun _ => rfl⟩,
        ?_⟩
      · exact ⟨ts, ts', blank, after, after', n + 1, n' + 1, rfl, rfl, hts, hblank, hafter⟩
      · by_cases he : ∃ t ∈ ts, Draft.endsTemplate (Text.clean t) = true
        · exact .inl fun _ => Gapped.sameBlock hts hblank hafter he
        · refine .inr (Gapped.sameBlock_late hts hblank hafter fun u hu => ?_)
          exact Bool.eq_false_iff.mpr fun hs => he ⟨u, hu, hs⟩

end Feed

/-- The same assembly but for the numbers of lines, which come in the same order. -/
structure Assembly.SameButLines (a a' : Assembly) : Prop where
  words : a'.words = a.words
  passes : a'.passes = a.passes
  fixedPoint : a'.fixedPoint = a.fixedPoint
  entries : List.Forall₂ (fun e e' => ∃ line root, e' = Entry.renumber line root e) a.entries
    a'.entries
  symbols : ∃ f : Nat → Nat, (∀ i j, i < j → f i < f j) ∧
    a'.symbols = { a.symbols with
      anonymous := a.symbols.anonymous.map fun l => { l with root := f l.root } }

/-- One line more after the line `line`. -/
def Padding.blankLine (line place : Nat) : Padding :=
  .insert line place 1 0 (fun _ => False) fun _ _ h => h

theorem Padding.blankLine_place (line place k : Nat) : (blankLine line place).place k = k :=
  ite_self _

theorem Padding.not_isSpacer_blankLine (line place : Nat) (e : Entry) :
    ¬(blankLine line place).IsSpacer e :=
  fun h => h.2

/-- Only the lines of anonymous labels get other numbers. -/
theorem SymbolTable.renumber_blankLine (s : SymbolTable) (line place : Nat) :
    s.renumber (.blankLine line place) = { s with
      anonymous := s.anonymous.map fun l =>
        { l with root := (Padding.blankLine line place).line l.root } } := by
  have hlabels : s.labels.map (fun row => (row.1, row.2.renumber (.blankLine line place))) =
      s.labels := by
    refine (List.map_congr_left fun row _ => ?_).trans (List.map_id _)
    unfold Label.renumber
    rw [Padding.blankLine_place]
    rfl
  unfold renumber
  rw [hlabels]
  congr 1
  refine List.map_congr_left fun l _ => ?_
  unfold AnonymousLabel.renumber
  rw [Padding.blankLine_place]

/-- Without spacers the entries are the same but for their numbers. -/
theorem Padded.forall₂_renumber {p : Padding} (hp : ∀ e, ¬p.IsSpacer e) {i j : Nat}
    {es es' : List Entry} (h : Padded p i j es es') :
    List.Forall₂ (fun e e' => ∃ line root, e' = Entry.renumber line root e) es es' := by
  induction h with
  | nil => exact .nil
  | twin _ he _ ih =>
    obtain ⟨line, root, he, -⟩ := he
    exact .cons ⟨line, root, he⟩ ih
  | spacer he => exact absurd he (hp _)

theorem Assembly.Beside.sameButLines {line place : Nat} {a a' : Assembly}
    (h : a.Beside (.blankLine line place) a') : a.SameButLines a' where
  words := h.agrees.words
  passes := h.passes
  fixedPoint := h.fixedPoint
  entries := h.entries.forall₂_renumber (Padding.not_isSpacer_blankLine line place)
  symbols := by
    refine ⟨(Padding.blankLine line place).line, fun i j hij => Padding.line_lt _ hij, ?_⟩
    rw [h.symbols, SymbolTable.renumber_blankLine]

namespace Draft

variable {v : Session} {d x y : Draft} {file : Text}

theorem line_of_clean_eq_nil {l : SourceLine} (h : Text.clean l.text = []) :
    d.line v l = .ok d := by
  unfold line
  rw [h]
  rfl

theorem Settled.withFeed (h : d.Settled) {f : Feed} (hf : d.feed.root ≤ f.root) :
    ({ d with feed := f } : Draft).Settled :=
  ⟨h.labels, fun l hl => ⟨Nat.le_trans (h.anonymous l hl).1 hf, (h.anonymous l hl).2⟩⟩

/-- Programs that have been the same so far go on beside each other, the second one after a blank
line. -/
theorem Beside.withBlank {F G : Feed → Feed → Prop} (h : y.Beside .none F x)
    (hroot : x.feed.root = y.feed.root) (hset : x.Settled) {f g : Feed}
    (hf : f.root = y.feed.root) (hG : G f g) :
    Beside (.blankLine y.feed.root y.entries.size) G { y with feed := f } { x with feed := g } := by
  have hnone : ∀ s ∈ ([] : List Entry), s.IsSilent ∧ False := by
    intro s hs
    cases hs
  exact h.insert hroot hset hf 1 (List.append_nil _).symm hnone hG

/-- From the blank line on, the programs are read alike. -/
theorem Beside.complete_at_blank {F : Feed → Feed → Prop} (hh : v.hooks.Unnumbered)
    (h : y.Beside .none F x) (hroot : x.feed.root = y.feed.root) (hset : x.Settled)
    {blank : Text} {after after' : List Text} {n n' : Nat} (hblank : Text.clean blank = [])
    (hafter : after'.map Text.clean = after.map Text.clean)
    (hy : y.feed.next? = Feed.next? ⟨[⟨file, after, .counted n⟩], y.feed.root⟩)
    (hx : x.feed.next? = Feed.next? ⟨[⟨file, blank :: after', .counted n'⟩], y.feed.root⟩)
    (steps : Nat) :
    Both Assembly.SameButLines (y.complete v steps) (x.complete v (steps + 1)) := by
  rw [Feed.next?_cons] at hx
  have hreads : x.ReadsLine v _ := ⟨_, _, hx, line_of_clean_eq_nil hblank⟩
  rw [hreads.complete_succ, complete_of_next? hy]
  have hbeside : Beside (.blankLine y.feed.root y.entries.size)
      (Feed.Beside (.blankLine y.feed.root y.entries.size) (Feed.Even file))
      { y with feed := ⟨[⟨file, after, .counted n⟩], y.feed.root⟩ }
      { x with feed := ⟨[⟨file, after', .counted (n' + 1)⟩], y.feed.root + 1⟩ } := by
    refine h.withBlank hroot hset rfl ⟨.base ⟨after, after', n, n' + 1, rfl, rfl, hafter⟩, ?_⟩
    intro k
    refine (Padding.insert_line_of_lt (Nat.lt_add_of_pos_right (Nat.succ_pos k))).trans ?_
    dsimp only
    omega
  exact (hbeside.complete hh (Feed.lockstep_even file) steps).mono fun _ _ => (·.sameButLines)

/-- The line that starts the definition of a macro to which the blank line belongs is read alike. -/
theorem Beside.line_late {F : Feed → Feed → Prop} (hF : Feed.Paired F)
    (hv : v.hooks.plugins = []) (hh : v.hooks.Unnumbered) (h : y.Beside .none F x)
    (hroot : x.feed.root = y.feed.root) (hset : x.Settled)
    (hb : Feed.SameBlock (Feed.Late file) y.feed x.feed) {l l' : SourceLine}
    (ht : l.Twin .none l') (hr : l.root = y.feed.root) (ha : y.blocks.active = true)
    (ho : opensTemplate (afterLabel (Text.clean l.text)) = true) :
    Both (Beside (.blankLine y.feed.root y.entries.size)
        (Feed.Beside (.blankLine y.feed.root y.entries.size) (Feed.Even file)))
      (y.line v l) (x.line v l') := by
  have hkept : Feed.Kept fun _ => True :=
    ⟨fun _ _ => trivial, fun _ _ _ => trivial, fun _ _ _ _ => trivial, fun _ => trivial⟩
  have hbeside : Beside (.blankLine y.feed.root y.entries.size) (Feed.SameFile fun _ => True) y x :=
    h.withBlank hroot hset rfl ⟨hF.currentFile h.feed, trivial⟩
  have htwin : l.Twin (.blankLine y.feed.root y.entries.size) l' :=
    ⟨ht.clean, ht.file, ht.root.trans (if_pos (Nat.le_of_eq hr)).symm⟩
  obtain ⟨⟨rest, rest', n, n', hf, hf', hrest⟩, hlate⟩ := hb.feed
  have hblock : Feed.SameBlock (Feed.SameFile fun _ => True) y.feed x.feed := by
    refine ⟨hb.body, hb.last, ?_, trivial⟩
    unfold Feed.currentFile?
    rw [hf, hf']
    rfl
  have hline := hbeside.line hkept.paired hh htwin (Nat.le_of_eq hr) fun _ _ => hblock
  have ha' : x.blocks.active = true := (congrArg Conditions.active h.blocks).trans ha
  have ho' : opensTemplate (afterLabel (Text.clean l'.text)) = true := by
    rw [ht.clean]
    exact ho
  -- Both feeds are known: they have left the block, with which the blank line has been read.
  have hfeed : Feed.Beside (.blankLine y.feed.root y.entries.size) (Feed.Even file)
      (y.feed.takeBlock endsTemplate).2.2 (x.feed.takeBlock endsTemplate).2.2 := by
    have hle := Feed.root_le_takeBlock endsTemplate y.feed
    refine ⟨.base ⟨rest, rest', n, n', hf, hf', hrest⟩, ?_⟩
    intro k
    refine (Padding.insert_line_of_lt (by omega)).trans ?_
    rw [hlate]
    omega
  refine hline.with_ok.mono fun y₁ x₁ h₁ => ?_
  obtain ⟨h₁, hy, hx⟩ := h₁
  rw [← line_feed_of_opensTemplate hv ha ho hy, ← line_feed_of_opensTemplate hv ha' ho' hx] at hfeed
  exact { h₁ with feed := hfeed }

/-- A line before the blank one is read alike, with the blank one if that belongs to a macro that the
line defines. -/
theorem Beside.line_gapped (hv : v.hooks.plugins = []) (hh : v.hooks.Unnumbered)
    (h : y.Beside .none (Feed.Beside .none (Feed.Gapped file)) x) (hset : x.Settled)
    {l l' : SourceLine} (ht : l.Twin .none l') (hr : l.root = y.feed.root)
    (hb : (opensTemplate (afterLabel (Text.clean l.text)) = true →
        Feed.SameBlock (Feed.Beside .none (Feed.Gapped file)) y.feed x.feed) ∨
      Feed.SameBlock (Feed.Late file) y.feed x.feed) :
    Both (Beside .none (Feed.Beside .none (Feed.Gapped file))) (y.line v l) (x.line v l') ∨
      Both (Beside (.blankLine y.feed.root y.entries.size)
          (Feed.Beside (.blankLine y.feed.root y.entries.size) (Feed.Even file)))
        (y.line v l) (x.line v l') := by
  have hroot : x.feed.root = y.feed.root := (Nat.add_right_cancel (h.feed.ahead 0)).symm
  rcases hb with hb | hb
  · left
    exact h.line Feed.Gapped.paired hh ht (Nat.le_of_eq hr) fun _ => hb
  · by_cases ho : y.blocks.active = true ∧ opensTemplate (afterLabel (Text.clean l.text)) = true
    · right
      exact h.line_late Feed.Gapped.paired hv hh hroot hset hb ht hr ho.1 ho.2
    · left
      apply h.line Feed.Gapped.paired hh ht (Nat.le_of_eq hr)
      intro ha hopens
      exact absurd ⟨ha, hopens⟩ ho

/-- A program and one that has a blank line more are assembled alike. The blank line takes a step,
unless it belongs to a macro. -/
theorem Beside.complete_gapped (hv : v.hooks.plugins = []) (hh : v.hooks.Unnumbered)
    (hs : v.symbols.OnlyEquates) {source : Text}
    (h : y.Beside .none (Feed.Beside .none (Feed.Gapped file)) x)
    (hreach : Relation.ReflTransGen (ReadsLine v) (v.start file source) x) (steps : Nat) :
    ∃ n ≤ 1, Both Assembly.SameButLines (y.complete v steps) (x.complete v (steps + n)) := by
  -- The induction is on the steps, since a macro that calls itself may bring lines without end.
  induction steps generalizing x y with
  | zero => exact ⟨0, Nat.zero_le 1, .error _⟩
  | succ steps ih =>
    have hroot : x.feed.root = y.feed.root := (Nat.add_right_cancel (h.feed.ahead 0)).symm
    have hset : x.Settled := .of_reads hv hs hreach
    rcases Feed.Gapped.next h.feed with
      ⟨blank, after, after', n, n', hblank, hafter, hy, hx⟩ | ⟨l, l', g, g', hy, hx, ht, hg, hb⟩
    · exact ⟨1, Nat.le_refl 1, h.complete_at_blank hh hroot hset hblank hafter hy hx (steps + 1)⟩
    · obtain ⟨hlroot, hsucc⟩ := Feed.next?_root hy
      obtain ⟨-, hsucc'⟩ := Feed.next?_root hx
      have h₁ : Beside .none (Feed.Beside .none (Feed.Gapped file)) { y with feed := g }
          { x with feed := g' } := h.withFeed hg (by omega)
      rcases h₁.line_gapped hv hh (hset.withFeed (by omega)) ht hlroot hb with hline | hline
      · have hy' := complete_succ (v := v) hy
        have hx' := complete_succ (v := v) hx
        have hxl : ∀ x₁, ({ x with feed := g' } : Draft).line v l' = .ok x₁ → x.ReadsLine v x₁ :=
          fun x₁ hx₁ => ⟨l', g', hx, hx₁⟩
        generalize ({ y with feed := g } : Draft).line v l = a at hline hy'
        generalize ({ x with feed := g' } : Draft).line v l' = b at hline hx' hxl
        cases hline with
        | error e =>
          refine ⟨0, Nat.zero_le 1, ?_⟩
          rw [Nat.add_zero, hy', hx']
          exact .error e
        | ok h₂ =>
          obtain ⟨n, hn, hboth⟩ := ih h₂ (hreach.tail (hxl _ rfl))
          refine ⟨n, hn, ?_⟩
          rw [Nat.succ_add, hy', hx']
          exact hboth
      · refine ⟨0, Nat.zero_le 1, ?_⟩
        rw [Nat.add_zero, complete_succ hy, complete_succ hx]
        refine hline.bind fun y₁ x₁ h₂ => ?_
        exact (h₂.complete hh (Feed.lockstep_even file) steps).mono fun _ _ => (·.sameButLines)

end Draft

/-- Put a line without text anywhere into a program without plugins. It is assembled to the same
words, symbols and entries, in as many passes, but for the numbers of lines. -/
theorem Session.run_blank_line {v : Session} (hv : v.hooks.plugins = [])
    (hf : ∀ f ∈ v.hooks.functions, f.2.Unnumbered) (hs : v.symbols.OnlyEquates)
    {file source padded : Text} {before after : List Text}
    (hsource : (Text.lines source).map Text.clean = before ++ after)
    (hpadded : (Text.lines padded).map Text.clean = before ++ [] :: after) (steps : Nat) :
    ∃ n ≤ 1, Both Assembly.SameButLines (v.run steps file source)
      (v.run (steps + n) file padded) := by
  have hh : v.hooks.Unnumbered := ⟨hf, by simp [hv]⟩
  have hgap : (v.start file source).Beside .none (Feed.Beside .none (Feed.Gapped file))
      (v.start file padded) := by
    obtain ⟨common, rest, hl, hcommon, hrest⟩ := List.map_eq_append_iff.mp hsource
    obtain ⟨common', rest', hl', hcommon', hrest'⟩ := List.map_eq_append_iff.mp hpadded
    obtain ⟨blank, rest', rfl, hblank, hafter⟩ := List.map_eq_cons_iff.mp hrest'
    refine { Draft.Beside.self_start (I := fun _ => True) v file source trivial with
      feed := ⟨.base ⟨common, common', blank, rest, rest', 0, 0, ?_, ?_,
        hcommon'.trans hcommon.symm, hblank, hafter.trans hrest.symm⟩, fun _ => rfl⟩ }
    · rw [← hl]
      rfl
    · rw [← hl']
      rfl
  exact hgap.complete_gapped hv hh hs .refl steps

/-- A macro that is called on a line to which the last one refers. -/
def backProgram : Text := ".macro inc(x)\nADD x, 1\n.endmacro\n$: inc(A)\nSET PC, $-".toList

/-- The same program with a comment in the macro. -/
def commentedProgram : Text :=
  ".macro inc(x)\n  ; adds one\nADD x, 1\n.endmacro\n$: inc(A)\nSET PC, $-".toList

theorem Session.run_blank_line_sample :
    ∃ n a a', n ≤ 1 ∧ Session.bare.run 9 [] backProgram = .ok a ∧
      Session.bare.run (9 + n) [] commentedProgram = .ok a' ∧ a'.words = [34818, 34689] ∧
      a.SameButLines a' := by
  have hsource : (Text.lines backProgram).map Text.clean = [".macro inc(x)".toList] ++
      ["ADD x, 1".toList, ".endmacro".toList, "$: inc(A)".toList, "SET PC, $-".toList] := by
    decide +kernel
  have hpadded : (Text.lines commentedProgram).map Text.clean = [".macro inc(x)".toList] ++ [] ::
      ["ADD x, 1".toList, ".endmacro".toList, "$: inc(A)".toList, "SET PC, $-".toList] := by
    decide +kernel
  have hrun : ∃ n ≤ 1, Both Assembly.SameButLines (Session.bare.run 9 [] backProgram)
      (Session.bare.run (9 + n) [] commentedProgram) :=
    Session.run_blank_line rfl Session.bare_unnumbered.functions ⟨rfl, rfl⟩ hsource hpadded 9
  obtain ⟨n, hn, hboth⟩ := hrun
  obtain ⟨a, ha, hw⟩ := exists_ok (x := Session.bare.run 9 [] backProgram)
    (p := fun a => a.words == [34818, 34689]) (by decide +kernel)
  rw [ha] at hboth
  generalize hx : Session.bare.run (9 + n) [] commentedProgram = x at hboth
  cases hboth with
  | @ok _ a' h => exact ⟨n, a, a', hn, ha, hx, h.words.trans (by simpa using hw), h⟩

end Dcpu
