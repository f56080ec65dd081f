import Dcpu.Proofs.CleanLines
import Dcpu.Proofs.LinesToCome
import Dcpu.Proofs.Padding

/-! Programs whose lines have the same clean form. They are assembled alike, line by line: a line is
cleaned when it is read, and the lines of a macro also when it is defined. -/
namespace Dcpu

open Answer

def Frame.cleaned (f : Frame) : Frame := { f with rest := f.rest.map Text.clean }

namespace Feed

variable {f f' : Feed}

/-- The lines to come in their clean form. -/
def cleaned (f : Feed) : Feed := { f with frames := f.frames.map Frame.cleaned }

theorem currentFile?_cleaned (f : Feed) : f.cleaned.currentFile? = f.currentFile? := by
  simp only [currentFile?, cleaned, List.find?_map, Option.map_map]
  rfl

theorem nextInFrame?_cleaned (f : Feed) :
    f.cleaned.nextInFrame? = f.nextInFrame?.map fun x =>
      ({ x.1 with text := Text.clean x.1.text }, x.2.cleaned) := by
  obtain ⟨_ | ⟨⟨file, _ | ⟨t, rest⟩, n⟩, ks⟩, root⟩ := f
  · rfl
  · rfl
  · rfl

theorem next?_cleaned (f : Feed) :
    f.cleaned.next? = f.next?.map fun x =>
      ({ x.1 with text := Text.clean x.1.text }, x.2.cleaned) := by
  have hempty : (fun k : Frame => k.rest.isEmpty) ∘ Frame.cleaned = fun k => k.rest.isEmpty := by
    funext k
    simp [Frame.cleaned]
  rw [next?, cleaned]
  dsimp only
  rw [List.dropWhile_map, hempty]
  exact nextInFrame?_cleaned ⟨f.frames.dropWhile fun k => k.rest.isEmpty, f.root⟩

theorem takeBlock_cleaned (stop : Text → Bool) (f : Feed) :
    f.cleaned.takeBlock stop =
      ((f.takeBlock stop).1, (f.takeBlock stop).2.1, (f.takeBlock stop).2.2.cleaned) := by
  obtain ⟨_ | ⟨k, ks⟩, root⟩ := f
  · rfl
  · have hclean : (k.rest.map Text.clean).map Text.clean = k.rest.map Text.clean := by
      simp only [List.map_map, Function.comp_def, Text.clean_clean]
    simp only [takeBlock, cleaned, List.map_cons, Frame.cleaned, Frame.drop, hclean, List.map_drop]

/-- Supplies whose lines have the same clean forms are of the same file. -/
theorem currentFile?_of_cleaned (h : f'.cleaned = f.cleaned) :
    f'.currentFile? = f.currentFile? := by
  rw [← currentFile?_cleaned, h, currentFile?_cleaned]

theorem cleaned_push (h : f'.cleaned = f.cleaned) (k : Frame) :
    cleaned ⟨k :: f'.frames, f'.root⟩ = cleaned ⟨k :: f.frames, f.root⟩ := by
  obtain ⟨hframes, hroot⟩ := Feed.mk.inj h
  simp only [cleaned, List.map_cons, hframes, hroot]

theorem takeBlock_of_cleaned (stop : Text → Bool) (h : f'.cleaned = f.cleaned) :
    (f'.takeBlock stop).1 = (f.takeBlock stop).1 ∧
      (f'.takeBlock stop).2.1 = (f.takeBlock stop).2.1 ∧
      (f'.takeBlock stop).2.2.cleaned = (f.takeBlock stop).2.2.cleaned := by
  have hb := takeBlock_cleaned stop f'
  rw [h, takeBlock_cleaned] at hb
  obtain ⟨hbody, hb⟩ := Prod.mk.inj hb
  obtain ⟨hlast, hfeed⟩ := Prod.mk.inj hb
  exact ⟨hbody.symm, hlast.symm, hfeed.symm⟩

end Feed

namespace Draft

variable {v : Session} {d d' : Draft} {e : Entry} {l : SourceLine} {args t : Text}

/-- The drafts differ in the lines to come, but not in their clean forms. -/
def Alike (d d' : Draft) : Prop := ∃ f : Feed, f.cleaned = d.feed.cleaned ∧ d' = d.withFeed f

theorem KeepsFeed.both {op : Draft → Except Abort Draft} (h : KeepsFeed op) (ha : d.Alike d') :
    Both Alike (op d) (op d') := by
  obtain ⟨f, hf, rfl⟩ := ha
  -- with its own lines to come the draft is unchanged, so the operation keeps them
  have hself : op d = (op d).map (·.withFeed d.feed) := h d d.feed rfl
  rw [h d f (Feed.currentFile?_of_cleaned hf)]
  cases hx : op d with
  | error a => exact .error a
  | ok x =>
    rw [hx] at hself
    have hfeed : x = x.withFeed d.feed := Except.ok.inj hself
    refine .ok ⟨f, ?_, rfl⟩
    rw [hfeed]
    exact hf

namespace Alike

theorem apply {g : Draft → Draft} (hg : ∀ d f, g (d.withFeed f) = (g d).withFeed f)
    (h : d.Alike d') : (g d).Alike (g d') := by
  obtain ⟨f, hf, rfl⟩ := h
  have hself : g d = (g d).withFeed d.feed := hg d d.feed
  refine ⟨f, ?_, hg d f⟩
  rw [hself]
  exact hf

theorem includeText (h : d.Alike d') :
    Both Alike (d.includeText v e args) (d'.includeText v e args) := by
  obtain ⟨f, hf, rfl⟩ := h
  simp only [Draft.includeText, locate_withFeed v args (Feed.currentFile?_of_cleaned hf)]
  rcases d.locate v args with a | _ | ⟨path, n⟩
  · exact .error a
  · exact .ok ⟨f, hf, rfl⟩
  · dsimp only [bind, Except.bind]
    cases n.text with
    | ok contents => exact .ok ⟨f.pushFile path contents, Feed.cleaned_push hf _, rfl⟩
    | error reason => exact .ok ⟨f, hf, rfl⟩

/-- The lines of a macro are taken in their clean form. -/
theorem template (h : d.Alike d') : (d.template l e args).Alike (d'.template l e args) := by
  obtain ⟨f, hf, rfl⟩ := h
  obtain ⟨hbody, hlast, hfeed⟩ := Feed.takeBlock_of_cleaned endsTemplate hf
  rw [template_eq, template_eq]
  change Alike _ (afterBlock e args l (f.takeBlock endsTemplate).1 (f.takeBlock endsTemplate).2.1 _)
  rw [hbody, hlast]
  exact apply (afterBlock_withFeed e args l _ _) ⟨_, hfeed, rfl⟩

theorem expandCall? (h : d.Alike d') :
    Option.Rel Alike (d.expandCall? l t) (d'.expandCall? l t) := by
  obtain ⟨f, hf, rfl⟩ := h
  unfold Draft.expandCall?
  cases Template.call? t with
  | none => exact .none
  | some call =>
    change Option.Rel Alike (Template.find? d.templates call.1 call.2 >>= _)
      (Template.find? d.templates call.1 call.2 >>= _)
    cases Template.find? d.templates call.1 call.2 with
    | none => exact .none
    | some m =>
      exact .some ⟨f.pushCall (m.expand call.2) l.file l.line, Feed.cleaned_push hf _, rfl⟩

theorem directive (h : d.Alike d') : Both Alike (d.directive v l t) (d'.directive v l t) := by
  by_cases hi : (Directive.parse t).1 = some .includeText
  · have hd (d : Draft) : d.directive v l t =
        d.includeText v (d.entry l t) (Directive.parse t).2 := by
      simp only [Draft.directive, hi]
    rw [hd, hd]
    obtain ⟨f, hf, rfl⟩ := h
    exact includeText ⟨f, hf, rfl⟩
  by_cases ht : (Directive.parse t).1 = some .template
  · have hd (d : Draft) : d.directive v l t =
        .ok (d.template l (d.entry l t) (Directive.parse t).2) := by
      simp only [Draft.directive, ht]
    rw [hd, hd]
    obtain ⟨f, hf, rfl⟩ := h
    exact .ok (template ⟨f, hf, rfl⟩)
  · exact (keepsFeed_directive v l hi ht).both h

theorem statement (h : d.Alike d') : Both Alike (d.statement v l t) (d'.statement v l t) := by
  unfold Draft.statement
  split
  · exact .ok h
  dsimp only
  split
  · exact h.directive
  · have hcall := h.expandCall? (l := l) (t := canonicalStatement t)
    generalize d.expandCall? l (canonicalStatement t) = x,
      d'.expandCall? l (canonicalStatement t) = y at hcall
    cases hcall with
    | some hcall => exact .ok hcall
    | none => exact (keepsFeed_instruction v l _).both h

theorem takeLabel (h : d.Alike d') : (d.takeLabel l t).1.Alike (d'.takeLabel l t).1 ∧
    (d'.takeLabel l t).2 = (d.takeLabel l t).2 := by
  refine ⟨apply (g := fun d => (d.takeLabel l t).1) (fun d f => ?_) h, ?_⟩
  · exact congrArg Prod.fst (takeLabel_withFeed l t d f)
  · obtain ⟨f, -, rfl⟩ := h
    rw [takeLabel_withFeed]

theorem line (h : d.Alike d') : Both Alike (d.line v l) (d'.line v l) := by
  have hblocks : d'.blocks = d.blocks := by
    obtain ⟨f, -, rfl⟩ := h
    rfl
  have haddress : d'.address = d.address := by
    obtain ⟨f, -, rfl⟩ := h
    rfl
  unfold Draft.line
  dsimp only
  rw [hblocks, haddress]
  split
  · exact .ok h
  split
  · unfold skippedLine
    split
    · exact h.directive
    · exact .ok h
  split
  next plugin e _ =>
    let c : LineContext := ⟨l.file, l.line, d.address⟩
    exact .ok (apply (g := fun d => d.claimed plugin (Text.clean l.text) c e) (fun _ _ => rfl) h)
  next =>
    obtain ⟨hl, hrest⟩ := h.takeLabel (l := l) (t := Text.clean l.text)
    rw [hrest]
    exact hl.statement

theorem readAll (h : d.Alike d') (steps : Nat) :
    Both Alike (d.readAll v steps) (d'.readAll v steps) := by
  induction steps generalizing d d' with
  | zero => exact .error _
  | succ steps ih =>
    obtain ⟨f, hf, rfl⟩ := h
    have hn := Feed.next?_cleaned f
    rw [hf, Feed.next?_cleaned] at hn
    have hfeed : (d.withFeed f).feed = f := rfl
    rw [Draft.readAll, Draft.readAll, hfeed]
    cases hx : d.feed.next? with
    | none =>
      rw [hx] at hn
      rw [Option.map_eq_none_iff.mp hn.symm]
      exact .ok ⟨f, hf, rfl⟩
    | some x =>
      rw [hx] at hn
      obtain ⟨⟨l', g'⟩, hy, hxy⟩ := Option.map_eq_some_iff.mp hn.symm
      obtain ⟨⟨t, file, number, root⟩, g⟩ := x
      obtain ⟨hl, hg⟩ := Prod.mk.inj hxy
      obtain ⟨t', file', number', root'⟩ := l'
      obtain ⟨ht, rfl, rfl, rfl⟩ := SourceLine.mk.inj hl
      rw [hy]
      -- the two lines have one clean form, and the lines behind them are alike again
      have hline : Both Alike ({ d with feed := g }.line v ⟨t, file', number', root'⟩)
          ({ d.withFeed f with feed := g' }.line v ⟨t', file', number', root'⟩) := by
        have hw := line_withText v { d.withFeed f with feed := g' } ⟨t, file', number', root'⟩ ht
        rw [hw]
        exact line ⟨g', hg, rfl⟩
      dsimp only
      generalize { d with feed := g }.line v ⟨t, file', number', root'⟩ = x,
        { d.withFeed f with feed := g' }.line v ⟨t', file', number', root'⟩ = y at hline
      cases hline with
      | ok h => exact ih h
      | error a => exact .error a

end Alike

end Draft

theorem Session.run_of_clean_eq (v : Session) (steps : Nat) (file : Text) {source source' : Text}
    (h : (Text.lines source').map Text.clean = (Text.lines source).map Text.clean) :
    v.run steps file source' = v.run steps file source := by
  have hstart : (v.start file source).Alike (v.start file source') := by
    refine ⟨.ofFile file source', ?_, rfl⟩
    simp only [start, Feed.ofFile, Feed.pushFile, Feed.cleaned, List.map_cons, Frame.cleaned, h]
  have hread := hstart.readAll (v := v) steps
  unfold run
  generalize (v.start file source).readAll v steps = x,
    (v.start file source').readAll v steps = y at hread
  cases hread with
  | ok hd =>
    obtain ⟨f, -, rfl⟩ := hd
    rfl
  | error a => rfl

namespace Job

/-- Programs whose lines have the same clean forms are assembled alike. -/
theorem assembleWithin_of_clean_eq (job : Job) (budget : Nat) (file : Text) {source source' : Text}
    (h : (Text.lines source').map Text.clean = (Text.lines source).map Text.clean) :
    job.assembleWithin budget file source' = job.assembleWithin budget file source := by
  cases budget with
  | zero => rfl
  | succ budget => exact Session.run_of_clean_eq _ (budget + 1) file h

/-- The clean form of a line is final: cleaning it again changes nothing, it has no comment, and it
has the closed literals that stand before the comment. So a program of clean lines, of which some
may belong to macros, is assembled to the same entries, symbols and passes. -/
theorem assemble_clean (job : Job) (file source : Text) :
    (∀ line, Text.clean (Text.clean line) = Text.clean line ∧
      (∀ m ∈ Text.marked (Text.clean line), m.isOpenly ';' = false) ∧
      Text.literals (Text.clean line) = Text.literals (Text.uncommented line)) ∧
    Text.lines (Text.unlines ((Text.lines source).map Text.clean)) =
      (Text.lines source).map Text.clean ∧
    job.assemble file (Text.unlines ((Text.lines source).map Text.clean)) =
      job.assemble file source := by
  refine ⟨fun line => ⟨Text.clean_clean line, Text.isOpenly_clean line, Text.literals_clean line⟩,
    Text.lines_clean source, job.assembleWithin_of_clean_eq budget file ?_⟩
  rw [Text.lines_clean]
  simp only [List.map_map, Function.comp_def, Text.clean_clean]

/-- A macro with comments and white space in its body and in its call. -/
theorem assemble_clean_sample :
    Session.bare.toJob.assemble [] ".macro m(a)\nDAT a, '; '\n.endmacro\nm(1 )\n".toList =
      Session.bare.toJob.assemble []
        " .macro  m(a) ; def\n\tDAT   a,  '; ' ; 'x'\n.endmacro ;\nm(1  ) ; \"call".toList := by
  have hclean : Text.unlines ((Text.lines
      " .macro  m(a) ; def\n\tDAT   a,  '; ' ; 'x'\n.endmacro ;\nm(1  ) ; \"call".toList).map
        Text.clean) = ".macro m(a)\nDAT a, '; '\n.endmacro\nm(1 )\n".toList := by
    decide +kernel
  rw [← hclean]
  exact (assemble_clean Session.bare.toJob [] _).2.2

end Job

end Dcpu
