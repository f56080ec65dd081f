import Dcpu.Proofs.Frames
import Mathlib.Data.List.TakeWhile

/-! Reading the lines that two programs have in common before they part. -/
namespace Dcpu
open Answer

namespace Feed

/-- What holds of a supply of lines however it is used. -/
structure Kept (I : Feed → Prop) : Prop where
  next {f g : Feed} {l : SourceLine} : I f → f.next? = some (l, g) → I g
  pushFile {f : Feed} (file contents : Text) : I f → I (f.pushFile file contents)
  pushCall {f : Feed} (body : List Text) (file : Text) (line : Nat) : I f →
    I (f.pushCall body file line)
  takeBlock {f : Feed} : I f → I (f.takeBlock Draft.endsTemplate).2.2

/-- The same file is being read, and something is known of the supply. -/
def SameFile (I : Feed → Prop) (f f' : Feed) : Prop := f'.currentFile? = f.currentFile? ∧ I f

theorem Kept.paired {I : Feed → Prop} (h : Kept I) : Paired (SameFile I) where
  currentFile h := h.1
  pushFile file contents hI := ⟨rfl, h.pushFile file contents hI.2⟩
  pushCall body file line _ hI := ⟨hI.1, h.pushCall body file line hI.2⟩

/-- The number of lines that remain in the outermost frame. -/
def remaining (f : Feed) : Nat := (f.frames.getLast?.map fun g => g.rest.length).getD 0

/-- There is a frame, and at most `n` lines remain in the outermost one. -/
def AtMost (n : Nat) (f : Feed) : Prop := f.frames ≠ [] ∧ f.remaining ≤ n

theorem remaining_cons {f : Frame} {fs : List Frame} {r : Nat} (h : fs ≠ []) :
    remaining ⟨f :: fs, r⟩ = remaining ⟨fs, r⟩ := by
  unfold remaining
  rw [List.getLast?_cons_of_ne_nil h]

theorem remaining_singleton (f : Frame) (r : Nat) : remaining ⟨[f], r⟩ = f.rest.length := rfl

/-- Lines of the innermost frame are taken. -/
theorem remaining_drop_le (f : Frame) (fs : List Frame) (n r r' : Nat) :
    remaining ⟨f.drop n :: fs, r'⟩ ≤ remaining ⟨f :: fs, r⟩ := by
  by_cases h : fs = []
  · subst h
    rw [remaining_singleton, remaining_singleton, Frame.drop, List.length_drop]
    omega
  · rw [remaining_cons h, remaining_cons h]
    exact Nat.le_refl _

/-- The frames that have come to an end are left, but never the outermost one. -/
theorem getLast?_of_dropWhile {fs ks : List Frame} {k : Frame}
    (h : fs.dropWhile (fun f => f.rest.isEmpty) = k :: ks) :
    (k :: ks).getLast? = fs.getLast? := by
  obtain ⟨ts, ht⟩ := List.dropWhile_suffix (l := fs) fun f : Frame => f.rest.isEmpty
  rw [← ht, h, List.getLast?_append_of_ne_nil _ (List.cons_ne_nil k ks)]

theorem kept_atMost (n : Nat) : Kept (AtMost n) where
  next {f g l} h hn := by
    obtain ⟨k, ks, t, ts, hd, -, -, rfl⟩ := exists_frame_of_next? hn
    refine ⟨List.cons_ne_nil _ _, Nat.le_trans (remaining_drop_le k ks 1 f.root _) ?_⟩
    unfold remaining
    dsimp only
    rw [getLast?_of_dropWhile hd]
    exact h.2
  pushFile file contents h := by
    refine ⟨List.cons_ne_nil _ _, ?_⟩
    unfold Feed.pushFile
    rw [remaining_cons h.1]
    exact h.2
  pushCall body file line h := by
    refine ⟨List.cons_ne_nil _ _, ?_⟩
    unfold Feed.pushCall
    rw [remaining_cons h.1]
    exact h.2
  takeBlock {f} h := by
    obtain ⟨fs, r⟩ := f
    cases fs with
    | nil => exact absurd rfl h.1
    | cons f fs =>
      rw [takeBlock_feed]
      exact ⟨List.cons_ne_nil _ _, Nat.le_trans (remaining_drop_le f fs _ r _) h.2⟩

/-- The outermost frames have lines in common, after which they go on differently. -/
def Fork (file : Text) (after after' : List Text) (fs fs' : List Frame) : Prop :=
  ∃ common n, fs = [⟨file, common ++ after, .counted n⟩] ∧
    fs' = [⟨file, common ++ after', .counted n⟩]

section Fork

variable {stop : Text → Bool} {file : Text} {common after after' : List Text}

/-- A block that ends among the common lines. -/
theorem block_append (h : ∃ t ∈ common, stop (Text.clean t) = true) (after : List Text) :
    blockBody stop (common ++ after) = blockBody stop common ∧
      blockEnd? stop (common ++ after) = blockEnd? stop common ∧
      blockLength stop common ≤ common.length := by
  have hlt : (blockBody stop common).length < common.length := by
    refine Nat.lt_of_le_of_ne ?_ fun he => ?_
    · exact Nat.le_trans (List.takeWhile_prefix _).length_le (by simp)
    · obtain ⟨t, ht, hs⟩ := h
      have hself : blockBody stop common = common.map Text.clean :=
        (List.takeWhile_prefix _).eq_of_length (he.trans (by simp))
      simpa [hs] using List.takeWhile_eq_self_iff.mp hself _ (List.mem_map_of_mem ht)
  have hbody : blockBody stop (common ++ after) = blockBody stop common := by
    unfold blockBody at hlt ⊢
    rw [List.map_append, List.takeWhile_append, if_neg]
    simpa using Nat.ne_of_lt hlt
  refine ⟨hbody, ?_, ?_⟩
  · unfold blockEnd?
    rw [hbody, List.map_append, List.drop_append_of_le_length (by simpa using Nat.le_of_lt hlt),
      List.head?_append_of_ne_nil _ (by simpa using hlt)]
  · have : (blockEnd? stop common).toList.length ≤ 1 := by
      cases blockEnd? stop common with
      | none => exact Nat.zero_le _
      | some t => exact Nat.le_refl _
    unfold blockLength
    omega

/-- A block that does not end among the common lines goes on behind them. -/
theorem block_append_of_free (h : ∀ t ∈ common, stop (Text.clean t) = false) (after : List Text) :
    blockBody stop (common ++ after) = common.map Text.clean ++ blockBody stop after ∧
      blockEnd? stop (common ++ after) = blockEnd? stop after ∧
      blockLength stop (common ++ after) = common.length + blockLength stop after := by
  have hbody : blockBody stop (common ++ after) =
      common.map Text.clean ++ blockBody stop after := by
    unfold blockBody
    rw [List.map_append, List.takeWhile_append_of_pos]
    intro t ht
    obtain ⟨x, hx, rfl⟩ := List.mem_map.mp ht
    simp [h x hx]
  have hend : blockEnd? stop (common ++ after) = blockEnd? stop after := by
    unfold blockEnd?
    rw [hbody, List.map_append, List.length_append, List.drop_length_add_append]
  refine ⟨hbody, hend, ?_⟩
  rw [blockLength, blockLength, hbody, hend, List.length_append, List.length_map, Nat.add_assoc]

/-- A block that does not end among the common lines takes at least one more. -/
theorem lt_blockLength (h : ∀ t ∈ common, stop (Text.clean t) = false) (c : Text)
    (after : List Text) : common.length < blockLength stop (common ++ c :: after) := by
  rw [(block_append_of_free h (c :: after)).2.2]
  refine Nat.lt_add_of_pos_right ?_
  unfold blockLength blockEnd?
  by_cases hc : stop (Text.clean c) = true
  · have : blockBody stop (c :: after) = [] := by simp [blockBody, hc]
    simp [this]
  · have : 0 < (blockBody stop (c :: after)).length := by simp [blockBody, hc]
    omega

theorem Fork.paired {p : Padding} : Paired (Beside p (Fork file after after')) := by
  refine Beside.paired ?_
  rintro bs bs' ⟨common, n, rfl, rfl⟩
  rfl

/-- Frames that have come to an end do not matter for the next line. -/
theorem next?_of_dropWhile {fs gs : List Frame} {r : Nat}
    (h : fs.dropWhile (fun f => f.rest.isEmpty) = gs.dropWhile fun f => f.rest.isEmpty) :
    next? ⟨fs, r⟩ = next? ⟨gs, r⟩ := by
  rw [next?_eq, next?_eq, h]

theorem next?_cons (file t : Text) (ts : List Text) (n : Numbering) (fs : List Frame) (r : Nat) :
    next? ⟨⟨file, t :: ts, n⟩ :: fs, r⟩ =
      some (⟨t, file, n.ahead 0, r + 1⟩, ⟨⟨file, ts, n.advance 1⟩ :: fs, r + 1⟩) :=
  rfl

/-- The definition of a macro that starts before the programs part is the same in both, or it reaches
behind that point. -/
theorem Fork.sameBlock_or {c : Text} (ts : List Text) (n r : Nat) :
    SameBlock (Beside .none (Fork file after (c :: after')))
        ⟨[⟨file, ts ++ after, .counted n⟩], r⟩ ⟨[⟨file, ts ++ c :: after', .counted n⟩], r⟩ ∨
      (takeBlock Draft.endsTemplate ⟨[⟨file, ts ++ c :: after', .counted n⟩], r⟩).2.2.AtMost
        after'.length := by
  by_cases he : ∃ t ∈ ts, Draft.endsTemplate (Text.clean t) = true
  · obtain ⟨hb, hend, hle⟩ := block_append he after
    obtain ⟨hb', hend', -⟩ := block_append he (c :: after')
    have hlen : blockLength Draft.endsTemplate (ts ++ after) =
        blockLength Draft.endsTemplate ts := by rw [blockLength, blockLength, hb, hend]
    refine .inl (.of_blocks (hb'.trans hb.symm) (hend'.trans hend.symm) ?_)
    dsimp only
    rw [hlen]
    refine ⟨.base ⟨ts.drop (blockLength Draft.endsTemplate ts),
      n + blockLength Draft.endsTemplate ts, ?_, ?_⟩, fun _ => rfl⟩
    · rw [← List.drop_append_of_le_length hle]
      rfl
    · rw [← List.drop_append_of_le_length hle]
      rfl
  · have hnone : ∀ t ∈ ts, Draft.endsTemplate (Text.clean t) = false :=
      fun t ht => by simpa using fun hs => he ⟨t, ht, hs⟩
    have hlt := lt_blockLength hnone c after'
    refine .inr ?_
    rw [takeBlock_feed]
    refine ⟨List.cons_ne_nil _ _, ?_⟩
    rw [remaining_singleton, Frame.drop, List.length_drop]
    dsimp only
    rw [List.length_append, List.length_cons]
    omega

/-- Before the programs part, their next lines are the same. The second one stays before that point
only if a macro that the line may define does not reach behind it. -/
theorem Fork.next {c : Text} {f f' g : Feed} {l : SourceLine}
    (h : Beside .none (Fork file after (c :: after')) f f') (hn : f'.next? = some (l, g)) :
    g.AtMost after'.length ∨
      ∃ l₀ g₀, f.next? = some (l₀, g₀) ∧ l₀.Twin .none l ∧
        Beside .none (Fork file after (c :: after')) g₀ g ∧
        ((opensTemplate (afterLabel (Text.clean l.text)) = true →
            SameBlock (Beside .none (Fork file after (c :: after'))) g₀ g) ∨
          (g.takeBlock Draft.endsTemplate).2.2.AtMost after'.length) := by
  obtain ⟨fs, r⟩ := f
  obtain ⟨fs', r'⟩ := f'
  obtain rfl : r = r' := Nat.add_right_cancel (h.ahead 0)
  rcases h.frames.dropWhile_cases with ⟨k, k', gs, gs', hk, hk', hne, ht, hs⟩ |
    ⟨bs, bs', ⟨common, n, rfl, rfl⟩, hd, hd'⟩
  · obtain ⟨l₀, l', g₀, g', hx, hx', hl, hg, hb⟩ := exists_next_of_twins hk hk' hne ht hs h.ahead
    obtain ⟨rfl, rfl⟩ := Prod.mk.inj (Option.some.inj (hx'.symm.trans hn))
    exact .inr ⟨l₀, g₀, hx, hl, hg, .inl fun _ => hb⟩
  · rw [next?_of_dropWhile hd'] at hn
    rw [next?_of_dropWhile hd]
    cases common with
    | nil =>
      rw [List.nil_append, next?_cons] at hn
      obtain ⟨-, rfl⟩ := Prod.mk.inj (Option.some.inj hn)
      exact .inl ⟨List.cons_ne_nil _ _, Nat.le_refl _⟩
    | cons t ts =>
      rw [List.cons_append, next?_cons] at hn
      obtain ⟨rfl, rfl⟩ := Prod.mk.inj (Option.some.inj hn)
      refine .inr ⟨_, _, next?_cons file t (ts ++ after) _ [] r, ⟨rfl, rfl, rfl⟩,
        ⟨.base ⟨ts, n + 1, rfl, rfl⟩, fun _ => rfl⟩, ?_⟩
      rcases Fork.sameBlock_or ts (n + 1) (r + 1) with hb | hb
      · exact .inl fun _ => hb
      · exact .inr hb

end Fork

end Feed

namespace Draft

variable {v : Session} {d d₁ : Draft} {I : Feed → Prop}

section Templates

theorem foldl_push_feed {α : Type} (f : Draft → α → Entry) (as : List α) (d : Draft) :
    (as.foldl (fun d a => d.push (f d a)) d).feed = d.feed := by
  induction as generalizing d with
  | nil => rfl
  | cons a as ih => exact ih _

theorem template_feed (d : Draft) (l : SourceLine) (e : Entry) (args : Text) :
    (d.template l e args).feed = (d.feed.takeBlock endsTemplate).2.2 := by
  unfold template
  dsimp only
  split
  · rfl
  · split
    · dsimp only
      rw [foldl_push_feed, pushOutcome_feed]
    · rw [foldl_push_feed, pushOutcome_feed]

/-- Where lines count, the line that starts the definition of a macro takes the block that
follows. -/
theorem line_feed_of_opensTemplate (hv : v.hooks.plugins = []) {l : SourceLine}
    (ha : d.blocks.active = true) (ho : opensTemplate (afterLabel (Text.clean l.text)) = true)
    (h : d.line v l = .ok d₁) : d₁.feed = (d.feed.takeBlock endsTemplate).2.2 := by
  have hne : (Text.clean l.text).isEmpty = false := by
    cases hc : Text.clean l.text with
    | nil =>
      rw [hc] at ho
      cases ho
    | cons => rfl
  have hrest : (afterLabel (Text.clean l.text)).isEmpty = false := by
    cases hc : afterLabel (Text.clean l.text) with
    | nil =>
      rw [hc] at ho
      cases ho
    | cons => rfl
  obtain ⟨hlead, ht⟩ : (canonicalStatement (afterLabel (Text.clean l.text))).head?.any
      Directive.isLead = true ∧
      (Directive.parse (canonicalStatement (afterLabel (Text.clean l.text)))).1 =
        some .template := by
    simpa [opensTemplate, directive?] using ho
  unfold line at h
  simp only [hne, ha, Hooks.claim?, hv, List.findSome?_nil, takeLabel_rest, statement, hrest,
    hlead, directive, ht, Bool.false_eq_true, if_false, if_true, Bool.not_true] at h
  obtain rfl := Except.ok.inj h
  rw [template_feed, takeLabel_feed]

end Templates

/-- A line read by a draft beside itself. -/
theorem Beside.self_line (hh : v.hooks.Unnumbered) (hI : Feed.Kept I)
    (h : d.Beside .none (Feed.SameFile I) d) {l : SourceLine} (hr : l.root = d.feed.root)
    (hl : d.line v l = .ok d₁) : d₁.Beside .none (Feed.SameFile I) d₁ := by
  have htwin : l.Twin .none l := ⟨rfl, rfl, rfl⟩
  have hline := h.line hI.paired hh htwin (Nat.le_of_eq hr)
    fun _ _ => ⟨rfl, rfl, rfl, hI.takeBlock h.feed.2⟩
  rw [hl] at hline
  cases hline with
  | ok h => exact h

/-- What every use of a supply of lines keeps, reading a line keeps. -/
theorem ReadsLine.self (hh : v.hooks.Unnumbered) (hI : Feed.Kept I)
    (h : d.Beside .none (Feed.SameFile I) d) (hr : d.ReadsLine v d₁) :
    d₁.Beside .none (Feed.SameFile I) d₁ := by
  obtain ⟨l, feed, hn, hl⟩ := hr
  obtain ⟨hroot, hsucc⟩ := Feed.next?_root hn
  refine Beside.self_line hh hI (h.withFeed ?_ ?_) hroot hl
  · exact ⟨rfl, hI.next h.feed.2 hn⟩
  · omega

theorem Beside.self_reads (hh : v.hooks.Unnumbered) (hI : Feed.Kept I)
    (h : d.Beside .none (Feed.SameFile I) d) (hr : Relation.ReflTransGen (ReadsLine v) d d₁) :
    d₁.Beside .none (Feed.SameFile I) d₁ := by
  induction hr with
  | refl => exact h
  | tail _ hr ih => exact hr.self hh hI ih

section Fork

variable {file c : Text} {after after' : List Text} {x y x₁ : Draft}

/-- One common line is read. -/
theorem Beside.fork_step (hv : v.hooks.plugins = []) (hh : v.hooks.Unnumbered)
    (h : y.Beside .none (Feed.Beside .none (Feed.Fork file after (c :: after'))) x)
    (hself : x.Beside .none (Feed.SameFile I) x) (hr : x.ReadsLine v x₁)
    (hrem : after'.length < x₁.feed.remaining) :
    ∃ y₁, y.ReadsLine v y₁ ∧
      y₁.Beside .none (Feed.Beside .none (Feed.Fork file after (c :: after'))) x₁ := by
  obtain ⟨l, g, hn, hl⟩ := hr
  obtain ⟨hroot, hsucc⟩ := Feed.next?_root hn
  rcases Feed.Fork.next h.feed hn with hpast | ⟨l₀, g₀, hn₀, ht, hg, hb⟩
  · -- The next line would be the first one that is not common.
    have hpast' := Beside.self_line hh (Feed.kept_atMost after'.length)
      (hself.withFeed (f := g) ⟨rfl, hpast⟩ (by omega)) hroot hl
    exact absurd hrem (Nat.not_lt.mpr hpast'.feed.2.2)
  · obtain ⟨hroot₀, hsucc₀⟩ := Feed.next?_root hn₀
    have hblock : y.blocks.active = true →
        opensTemplate (afterLabel (Text.clean l₀.text)) = true →
        Feed.SameBlock (Feed.Beside .none (Feed.Fork file after (c :: after'))) g₀ g := by
      intro ha ho
      rw [← ht.clean] at ho
      rcases hb with hb | hpast
      · exact hb ho
      · have ha' : x.blocks.active = true := (congrArg Conditions.active h.blocks).trans ha
        rw [line_feed_of_opensTemplate (d := { x with feed := g }) hv ha' ho hl] at hrem
        exact absurd hrem (Nat.not_lt.mpr hpast.2)
    have h₀ : Beside .none (Feed.Beside .none (Feed.Fork file after (c :: after')))
        { y with feed := g₀ } { x with feed := g } := h.withFeed hg (by omega)
    have hline := h₀.line Feed.Fork.paired hh ht (Nat.le_of_eq hroot₀) hblock
    rw [hl] at hline
    cases hy : ({ y with feed := g₀ } : Draft).line v l₀ with
    | error a =>
      rw [hy] at hline
      cases hline
    | ok y₁ =>
      rw [hy] at hline
      cases hline with
      | ok h₁ => exact ⟨y₁, ⟨l₀, g₀, hn₀, hy⟩, h₁⟩

/-- The outermost frame never gets more lines. -/
theorem ReadsLine.remaining_le (hh : v.hooks.Unnumbered) {n : Nat}
    (h : x.Beside .none (Feed.SameFile (Feed.AtMost n)) x) (hr : x.ReadsLine v x₁) :
    x₁.feed.remaining ≤ x.feed.remaining := by
  have hx : x.Beside .none (Feed.SameFile (Feed.AtMost x.feed.remaining)) x :=
    { h with feed := ⟨rfl, h.feed.2.1, Nat.le_refl _⟩ }
  exact (hr.self hh (Feed.kept_atMost _) hx).feed.2.2

/-- All lines up to a common one are read, in as many steps. What is then assembled in one more step
than in the other program was so from the start. -/
theorem Beside.fork_run (hv : v.hooks.plugins = []) (hh : v.hooks.Unnumbered) {n : Nat}
    (h : y.Beside .none (Feed.Beside .none (Feed.Fork file after (c :: after'))) x)
    (hself : x.Beside .none (Feed.SameFile (Feed.AtMost n)) x)
    (hreach : Relation.ReflTransGen (ReadsLine v) x x₁)
    (hrem : after'.length < x₁.feed.remaining) :
    ∃ y₁ : Draft,
      y₁.Beside .none (Feed.Beside .none (Feed.Fork file after (c :: after'))) x₁ ∧
      ∀ R : Assembly → Assembly → Prop,
        (∀ steps, Both R (y₁.complete v steps) (x₁.complete v (steps + 1))) →
        ∀ steps, Both R (y.complete v steps) (x.complete v (steps + 1)) := by
  induction hreach with
  | refl => exact ⟨y, h, fun _ => id⟩
  | @tail x₁ x₂ hreach hr ih =>
    have hself₁ := hself.self_reads hh (Feed.kept_atMost n) hreach
    obtain ⟨y₁, h₁, hrun⟩ := ih (Nat.lt_of_lt_of_le hrem (hr.remaining_le hh hself₁))
    obtain ⟨y₂, hr', h₂⟩ := h₁.fork_step hv hh hself₁ hr hrem
    refine ⟨y₂, h₂, fun R hR => hrun R fun steps => ?_⟩
    rw [hr.complete_succ]
    cases steps with
    | zero => exact .error _
    | succ steps =>
      rw [hr'.complete_succ]
      exact hR steps

end Fork

theorem Beside.self_start (v : Session) (file source : Text)
    (hI : I (v.start file source).feed) :
    (v.start file source).Beside .none (Feed.SameFile I) (v.start file source) where
  feed := ⟨rfl, hI⟩
  symbols := (SymbolTable.renumber_none _).symm
  templates := rfl
  blocks := rfl
  address := rfl
  listed := rfl
  longForm := rfl
  entries := .nil fun _ => rfl
  rooted e he := by cases he

end Draft

end Dcpu
