import Dcpu.Proofs.Scanning
import Dcpu.Proofs.Splicing
import Mathlib.Data.List.TakeDrop

/-! A macro call is as good as the lines that it stands for. -/
namespace Dcpu
open Answer

namespace Feed

/-- The lines of a call above the lines after it, beside all of them in one frame. No line of the
call starts the definition of a macro, which would end with the call. -/
def Callee (file : Text) (after : List Text) (fs fs' : List Frame) : Prop :=
  IsBottom fs fs' ∨ ∃ body m n n', fs = [⟨file, body ++ after, .counted m⟩] ∧
    fs' = [⟨file, body, .fixed n⟩, ⟨file, after, .counted n'⟩] ∧
    ∀ t ∈ body, opensTemplate (afterLabel (Text.clean t)) = false

theorem lockstep_callee {p : Padding} (file : Text) (after : List Text) :
    Lockstep p (Beside p (Callee file after)) := by
  refine Beside.lockstep ?_ ?_
  · rintro bs bs' (⟨rfl, rfl⟩ | ⟨body, m, n, n', rfl, rfl, -⟩)
    · rfl
    · rfl
  · rintro bs bs' r r' (⟨rfl, rfl⟩ | ⟨body, m, n, n', rfl, rfl, hbody⟩) hr
    · exact .none
    · cases body with
      | nil =>
        -- The call has come to an end, and the lines after it are read from twins.
        cases after with
        | nil => exact .none
        | cons t ts =>
          refine .of_twins rfl rfl (List.cons_ne_nil t ts) ⟨rfl, rfl, rfl⟩ ?_ hr
          exact .base (.inl ⟨rfl, rfl⟩)
      | cons t ts =>
        unfold SameNext
        rw [List.cons_append, next?_cons, next?_cons]
        refine .some ⟨⟨rfl, rfl, (hr 0).symm⟩, ⟨.base (.inr ?_), ahead_add hr 1⟩, fun ho => ?_⟩
        · exact ⟨ts, m + 1, n, n', rfl, rfl, fun x hx => hbody x (List.mem_cons_of_mem _ hx)⟩
        · rw [hbody t List.mem_cons_self] at ho
          cases ho

/-- A line of the outermost frame was the next one. -/
theorem remaining_of_next? {f : Feed} {l : SourceLine} {g : Frame} {r : Nat}
    (h : f.next? = some (l, ⟨[g], r⟩)) : f.remaining = g.rest.length + 1 := by
  obtain ⟨k, ks, t, ts, hd, ht, -, hg⟩ := exists_frame_of_next? h
  obtain ⟨rfl, rfl⟩ := List.cons.inj (congrArg Feed.frames hg)
  unfold remaining
  rw [← getLast?_of_dropWhile hd, Frame.drop]
  simp [ht]

/-- The first line that is not common is the next one of the second program. -/
theorem Fork.at_end {file c : Text} {after after' : List Text} {f f' : Feed} {l : SourceLine}
    {g : Frame} {r : Nat} (h : Beside .none (Fork file after (c :: after')) f f')
    (hn : f'.next? = some (l, ⟨[g], r⟩)) (hg : g.rest.length = after'.length) :
    ∃ m, f.next? = next? ⟨[⟨file, after, .counted m⟩], f.root⟩ := by
  obtain ⟨fs, r₀⟩ := f
  obtain ⟨fs', r₀'⟩ := f'
  have hlen := remaining_of_next? hn
  rcases h.frames.dropWhile_cases with ⟨k, k', gs, gs', hk, hk', hne, ht, hs⟩ |
    ⟨bs, bs', ⟨common, n, rfl, rfl⟩, hd, hd'⟩
  · -- Below the twins there is still the outermost frame.
    have hne' : gs' ≠ [] := by
      cases hs with
      | base hb =>
        obtain ⟨common, n, -, rfl⟩ := hb
        exact List.cons_ne_nil _ _
      | push => exact List.cons_ne_nil _ _
    obtain ⟨t, ts, hrest⟩ := List.exists_cons_of_ne_nil hne
    dsimp only at hk'
    rw [next?_eq, hk', nextInFrame?_cons (ht.rest.trans hrest)] at hn
    obtain ⟨-, hn⟩ := Prod.mk.inj (Option.some.inj hn)
    exact absurd (List.cons.inj (congrArg Feed.frames hn)).2 hne'
  · rw [next?_of_dropWhile hd'] at hn
    have hrem := remaining_of_next? hn
    rw [remaining_singleton, hg, List.length_append, List.length_cons] at hrem
    obtain rfl : common = [] := List.eq_nil_of_length_eq_zero (by omega)
    exact ⟨n, next?_of_dropWhile hd⟩

end Feed

/-- What is cut off before another character starts with the first one. -/
theorem Text.exists_of_cutAt_cons {c x : Char} {t : Text} {cut : Text × Text}
    (hx : (c == x) = false) (h : cutAt x (c :: t) = some cut) : ∃ before, cut.1 = c :: before := by
  unfold cutAt marked at h
  rw [List.span_eq_takeWhile_dropWhile, markedFrom,
    List.takeWhile_cons_of_pos (by simp [Mark.isOpenly, hx])] at h
  split at h
  · cases h
  next hspan =>
    obtain ⟨rfl, -⟩ := Prod.mk.inj hspan
    obtain rfl := Option.some.inj h
    exact ⟨_, rfl⟩

/-- A call starts with the name of a macro and not like a directive. -/
theorem Template.isLead_of_call? {t name : Text} {args : List Text}
    (h : Template.call? t = some (name, args)) : t.head?.any Directive.isLead = false := by
  cases t with
  | nil => rfl
  | cons c t =>
    refine Bool.eq_false_iff.mpr fun hl => ?_
    have hc : c = '.' ∨ c = '#' := by simpa [Directive.isLead] using hl
    obtain ⟨hblank, halpha, hopen⟩ :
        Text.isBlank c = false ∧ c.isAlpha = false ∧ (c == '(') = false := by
      rcases hc with rfl | rfl
      · decide
      · decide
    -- What stands before the parenthesis starts with the same character, which no name does.
    have hname : ∀ before, Name.isValid (Text.trim (c :: before)) = false := by
      intro before
      rw [Text.trim_cons hblank]
      simp [Name.isValid, halpha]
    unfold Template.call? at h
    obtain ⟨cut, hcut, h⟩ := Option.bind_eq_some_iff.mp h
    obtain ⟨before, hbefore⟩ := Text.exists_of_cutAt_cons hopen hcut
    obtain ⟨inner, -, h⟩ := Option.bind_eq_some_iff.mp h
    rw [hbefore] at h
    dsimp only at h
    rw [hname] at h
    cases h

namespace Draft

variable {v : Session} {d : Draft}

/-- The text, which has no label, calls a macro. -/
def Calls (d : Draft) (t : Text) (m : Template) (args : List Text) : Prop :=
  LabelPart.ofLine? t = none ∧ ∃ name, Template.call? (canonicalStatement t) = some (name, args) ∧
    Template.find? d.templates name args = some m

theorem line_call (hv : v.hooks.plugins = []) {l : SourceLine} {m : Template} {args : List Text}
    (ha : d.blocks.active = true) (hc : d.Calls (Text.clean l.text) m args) :
    d.line v l = .ok { d with
      feed := d.feed.pushCall (m.expand args) l.file l.line
      entries := d.entries.push (d.entry l (canonicalStatement (Text.clean l.text))) } := by
  obtain ⟨hlabel, name, hcall, hfind⟩ := hc
  have hlead := Template.isLead_of_call? hcall
  have hne : (Text.clean l.text).isEmpty = false := by
    cases ht : Text.clean l.text with
    | nil =>
      rw [ht] at hcall
      cases hcall
    | cons => rfl
  have hp := d.push_silent (e := d.entry l (canonicalStatement (Text.clean l.text)))
    ⟨rfl, rfl, rfl, rfl⟩
  unfold line
  simp only [hne, ha, Hooks.claim?, hv, List.findSome?_nil, takeLabel, hlabel, statement, hlead,
    expandCall?, hcall, hfind, hp, bind, Option.bind, pure, Bool.false_eq_true, if_false,
    Bool.not_true]

/-- Frames that have come to an end may be left at once. -/
theorem complete_of_next? {f : Feed} (h : d.feed.next? = f.next?) (steps : Nat) :
    d.complete v steps = { d with feed := f }.complete v steps := by
  unfold complete
  cases steps with
  | zero => rfl
  | succ steps =>
    rw [readAll, readAll]
    dsimp only
    rw [← h]
    cases d.feed.next? with
    | none => rfl
    | some x => rfl

end Draft

/-- The entry of a call, which stands in a given line, and one line more. -/
def Padding.call (line place : Nat) (code file : Text) (number : Nat) : Padding :=
  .insert line place 1 1 (fun e => e.code = code ∧ e.file = file ∧ e.line = number) fun _ _ h => h

/-- After the call the programs go on beside each other. -/
theorem Draft.Beside.after_call {F : Feed → Feed → Prop} {x y : Draft} (h : y.Beside .none F x)
    (hroot : x.feed.root = y.feed.root) (hset : x.Settled) (code : Text) (after : List Text)
    (k n' : Nat) {file : Text} {body : List Text} {n root : Nat} {l : SourceLine}
    (hfile : l.file = file)
    (hline : l.line = n) (hnumber : root = y.feed.root + 1)
    (hbody : ∀ t ∈ body, opensTemplate (afterLabel (Text.clean t)) = false) :
    Beside (.call y.feed.root y.entries.size code file n)
      (Feed.Beside (.call y.feed.root y.entries.size code file n) (Feed.Callee file after))
      { y with feed := ⟨[⟨file, body ++ after, .counted k⟩], y.feed.root⟩ }
      { x with
        feed := ⟨[⟨file, body, .fixed n⟩, ⟨file, after, .counted n'⟩], root⟩
        entries := x.entries.push (x.entry l code) } := by
  have hentries : (x.entries.push (x.entry l code)).toList = x.entries.toList ++ [x.entry l code] :=
    Array.toList_push
  refine h.insert (f := ⟨[⟨file, body ++ after, .counted k⟩], y.feed.root⟩) hroot hset rfl 1
    hentries ?_ ?_
  · intro s hs
    obtain rfl := List.mem_singleton.mp hs
    exact ⟨⟨rfl, rfl, rfl, rfl⟩, rfl, hfile, hline⟩
  · refine ⟨.base (.inr ⟨body, k, n, n', rfl, rfl, hbody⟩), fun i => ?_⟩
    refine (Padding.insert_line_of_lt (Nat.lt_add_of_pos_right (Nat.succ_pos i))).trans ?_
    dsimp only
    omega

/-- Put the lines that a macro call stands for in its place. The program is assembled to the same
words, symbols and entries, in one step less and without the entry of the call, which says
nothing. -/
theorem Session.run_call {v : Session} (hv : v.hooks.plugins = [])
    (hf : ∀ f ∈ v.hooks.functions, f.2.Unnumbered) (hs : v.symbols.OnlyEquates)
    {file source expanded call : Text} {before after args : List Text} {m : Template} {d : Draft}
    {root : Nat} (hsource : Text.lines source = before ++ call :: after)
    (hexpanded : Text.lines expanded = before ++ (m.expand args ++ after))
    (hreach : Relation.ReflTransGen (Draft.ReadsLine v) (v.start file source) d)
    (hnext : d.feed.next? = some (⟨call, file, before.length + 1, root⟩,
      ⟨[⟨file, after, .counted (before.length + 1)⟩], root⟩))
    (hactive : d.blocks.active = true) (hcall : d.Calls (Text.clean call) m args)
    (hlines : ∀ t ∈ m.expand args, opensTemplate (afterLabel (Text.clean t)) = false)
    (steps : Nat) :
    Both (fun a a' => a.Agrees a' ∧ ∃ pre e post, a'.entries = pre ++ e :: post ∧
        e.code = canonicalStatement (Text.clean call) ∧ e.file = file ∧
        e.line = before.length + 1 ∧ e.output = [] ∧
        (pre ++ post).map Entry.content = a.entries.map Entry.content)
      (v.run steps file expanded) (v.run (steps + 1) file source) := by
  have hh : v.hooks.Unnumbered := ⟨hf, by simp [hv]⟩
  have hfork : (v.start file expanded).Beside .none
      (Feed.Beside .none (Feed.Fork file (m.expand args ++ after) (call :: after)))
      (v.start file source) := by
    refine { Draft.Beside.self_start (I := fun _ => True) v file expanded trivial with
      feed := ⟨.base ⟨before, 0, ?_, ?_⟩, fun _ => rfl⟩ }
    · rw [← hexpanded]
      rfl
    · rw [← hsource]
      rfl
  have hself := Draft.Beside.self_start (I := Feed.AtMost (v.start file source).feed.remaining) v
    file source ⟨List.cons_ne_nil _ _, Nat.le_refl _⟩
  have hrem : after.length < d.feed.remaining := by
    rw [Feed.remaining_of_next? hnext]
    exact Nat.lt_succ_self _
  obtain ⟨y, hy, hrun⟩ := hfork.fork_run hv hh hself hreach hrem
  refine hrun _ (fun steps => ?_) steps
  obtain ⟨k, hk⟩ := Feed.Fork.at_end hy.feed hnext rfl
  have hroot : d.feed.root = y.feed.root := (Nat.add_right_cancel (hy.feed.ahead 0)).symm
  have hnumber : root = y.feed.root + 1 := hroot ▸ (Feed.next?_root hnext).2
  let l : SourceLine := ⟨call, file, before.length + 1, root⟩
  have hline := Draft.line_call (l := l)
    (d := { d with feed := ⟨[⟨file, after, .counted (before.length + 1)⟩], root⟩ }) hv hactive hcall
  have hreads : d.ReadsLine v _ := ⟨l, _, hnext, hline⟩
  rw [hreads.complete_succ, Draft.complete_of_next? hk]
  have hbeside := hy.after_call hroot (.of_reads hv hs hreach) (canonicalStatement (Text.clean call))
    after k (before.length + 1) (l := l) rfl rfl hnumber hlines
  refine (hbeside.complete hh (Feed.lockstep_callee file after) steps).mono fun a a' h => ?_
  have hlen : a'.entries.length = a.entries.length + 1 := by
    have hplace := (h.entries.place_length_add y.entries.size).symm.trans
      (Padding.insert_place_of_le (Nat.le_add_left _ _))
    omega
  obtain ⟨pre, e, post, he, ⟨hsilent, hcode, hfile, hline⟩, hcontent⟩ := h.entries.exists_spacer hlen
  exact ⟨h.agrees, pre, e, post, he, hcode, hfile, hline, hsilent.output, hcontent⟩

/-- A macro that is defined and called, followed by a line that looks back into the call. -/
def callProgram : Text := ".macro inc(x)\n$: ADD x, 1\n.endmacro\ninc(A)\nSET PC, $-".toList

/-- The same program with the lines of the call in its place. -/
def calledProgram : Text := ".macro inc(x)\n$: ADD x, 1\n.endmacro\n$: ADD A, 1\nSET PC, $-".toList

theorem Session.run_call_sample :
    ∃ a a', Session.bare.run 9 [] calledProgram = .ok a ∧
      Session.bare.run 10 [] callProgram = .ok a' ∧ a.Agrees a' ∧
      a'.words = [34818, 34689] ∧ a'.entries.length = a.entries.length + 1 := by
  let defined : List Text := [".macro inc(x)".toList, "$: ADD x, 1".toList, ".endmacro".toList]
  let inc : Template := ⟨"inc".toList, ["x".toList], ["$: ADD x, 1".toList]⟩
  let l : SourceLine := ⟨".macro inc(x)".toList, [], 1, 1⟩
  let feed : Feed := ⟨[⟨[], ["$: ADD x, 1".toList, ".endmacro".toList, "inc(A)".toList,
    "SET PC, $-".toList], .counted 1⟩], 1⟩
  have hn : (Session.bare.start [] callProgram).feed.next? = some (l, feed) := by decide +kernel
  have hline : ∃ d, { Session.bare.start [] callProgram with feed := feed }.line .bare l = .ok d ∧
      (d.blocks.active && decide (d.feed.next? =
        some (⟨"inc(A)".toList, [], defined.length + 1, 4⟩,
          ⟨[⟨[], ["SET PC, $-".toList], .counted (defined.length + 1)⟩], 4⟩)) &&
      decide (Template.find? d.templates "inc".toList ["A".toList] = some inc)) = true :=
    exists_ok (by decide +kernel)
  obtain ⟨d, hd, hp⟩ := hline
  simp only [Bool.and_eq_true, decide_eq_true_eq] at hp
  obtain ⟨⟨hactive, hnext⟩, hfind⟩ := hp
  have hcall : d.Calls (Text.clean "inc(A)".toList) inc ["A".toList] :=
    ⟨by decide +kernel, "inc".toList, by decide +kernel, hfind⟩
  have hsource : Text.lines callProgram =
      defined ++ "inc(A)".toList :: ["SET PC, $-".toList] := by decide +kernel
  have hexpanded : Text.lines calledProgram =
      defined ++ (inc.expand ["A".toList] ++ ["SET PC, $-".toList]) := by decide +kernel
  have hboth := Session.run_call (v := .bare) rfl Session.bare_unnumbered.functions ⟨rfl, rfl⟩
    hsource hexpanded (.single ⟨l, feed, hn, hd⟩) hnext hactive hcall (by decide +kernel) 9
  obtain ⟨a', ha', hw⟩ := exists_ok (x := Session.bare.run 10 [] callProgram)
    (p := fun a => a.words == [34818, 34689]) (by decide +kernel)
  rw [ha'] at hboth
  generalize Session.bare.run 9 [] calledProgram = x at hboth ⊢
  cases hboth with
  | @ok a _ h =>
    obtain ⟨hagrees, pre, e, post, he, -, -, -, -, hcontent⟩ := h
    refine ⟨a, a', rfl, ha', hagrees, by simpa using hw, ?_⟩
    have hlen := congrArg List.length hcontent
    simp only [List.length_map, List.length_append] at hlen
    rw [he, List.length_append, List.length_cons]
    omega

end Dcpu
