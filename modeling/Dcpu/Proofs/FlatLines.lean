import Dcpu.Proofs.BlockEvents
import Dcpu.Proofs.CommonLines

/-! The supply of source lines as one list. Reading from a stack of frames gives the same lines as
taking them from the front of a list in which the lines of included files and of macro calls are put
where they are asked for. -/
namespace Dcpu

/-- What is done with a supply of lines. -/
inductive FeedOp where
  | next
  | pushFile (file contents : Text)
  | pushCall (body : List Text) (file : Text) (line : Nat)
  deriving DecidableEq, Repr

/-- A line before it is handed out. -/
structure FlatLine where
  text : Text
  file : Text
  line : Nat
  deriving DecidableEq, Repr

/-- All lines to come, and the number of those that have been handed out. -/
structure FlatFeed where
  lines : List FlatLine := []
  root : Nat := 0
  deriving DecidableEq, Repr

namespace FlatFeed

/-- The first line is handed out, and further lines are put in front of all others: those of a file
with their numbers from one on, those of a call with the file and the number of the calling line. -/
def perform (f : FlatFeed) : FeedOp → Option SourceLine × FlatFeed
  | .next =>
    match f.lines with
    | [] => (none, f)
    | l :: ls => (some ⟨l.text, l.file, l.line, f.root + 1⟩, ⟨ls, f.root + 1⟩)
  | .pushFile file contents =>
    let lines := ((Text.lines contents).zipIdx 1).map fun (t, n) => ⟨t, file, n⟩
    (none, { f with lines := lines ++ f.lines })
  | .pushCall body file line => (none, { f with lines := body.map (⟨·, file, line⟩) ++ f.lines })

/-- What each operation gives. -/
def answers (f : FlatFeed) : List FeedOp → List (Option SourceLine)
  | [] => []
  | op :: ops => (f.perform op).1 :: (f.perform op).2.answers ops

/-- The lines that are handed out are numbered without gaps. -/
theorem root_answers (f : FlatFeed) (ops : List FeedOp) :
    ((f.answers ops).filterMap id).map SourceLine.root =
      List.range' (f.root + 1) ((f.answers ops).filterMap id).length := by
  induction ops generalizing f with
  | nil => rfl
  | cons op ops ih =>
    cases op with
    | next =>
      unfold answers perform
      cases f.lines with
      | nil => exact ih f
      | cons l ls => exact congrArg (List.cons (f.root + 1)) (ih ⟨ls, f.root + 1⟩)
    | pushFile file contents => exact ih _
    | pushCall body file line => exact ih _

end FlatFeed

/-- The lines of a frame, each with its file and its number. -/
def Frame.flat (f : Frame) : List FlatLine :=
  f.rest.zipIdx.map fun (t, i) => ⟨t, f.file, f.numbering.ahead i⟩

theorem Numbering.ahead_succ (n : Numbering) (i : Nat) :
    n.ahead (i + 1) = (n.advance 1).ahead i := by
  cases n with
  | counted last =>
    show last + (i + 1) + 1 = last + 1 + i + 1
    omega
  | fixed line => rfl

namespace Frame

variable {f : Frame}

theorem flat_eq_nil (h : f.rest = []) : f.flat = [] := by
  rw [flat, h]
  rfl

theorem flat_cons {t : Text} {ts : List Text} (h : f.rest = t :: ts) :
    f.flat = ⟨t, f.file, f.numbering.ahead 0⟩ :: (f.drop 1).flat := by
  have hts : (f.drop 1).rest = ts := by
    rw [drop, h]
    rfl
  rw [flat, flat, hts, h, List.zipIdx_cons, List.map_cons, List.zipIdx_succ, List.map_map]
  congr 1
  apply List.map_congr_left
  intro x _
  exact congrArg (FlatLine.mk x.1 f.file) (Numbering.ahead_succ f.numbering x.2)

theorem flat_file (file : Text) (lines : List Text) :
    flat ⟨file, lines, .counted 0⟩ = (lines.zipIdx 1).map fun (t, n) => ⟨t, file, n⟩ := by
  rw [flat, List.zipIdx_succ, List.map_map]
  apply List.map_congr_left
  intro x _
  show FlatLine.mk x.1 file (0 + x.2 + 1) = ⟨x.1, file, x.2 + 1⟩
  rw [Nat.zero_add]

theorem flat_call (file : Text) (body : List Text) (line : Nat) :
    flat ⟨file, body, .fixed line⟩ = body.map (⟨·, file, line⟩) := by
  have h := List.map_map (f := Prod.fst) (g := fun t : Text => FlatLine.mk t file line)
    (l := body.zipIdx)
  rw [List.zipIdx_map_fst] at h
  exact h.symm

end Frame

namespace Feed

/-- The lines of all frames, those of the innermost one first. -/
def flat (f : Feed) : FlatFeed := ⟨f.frames.flatMap Frame.flat, f.root⟩

/-- A supply without further lines has left all its frames. -/
def perform (f : Feed) : FeedOp → Option SourceLine × Feed
  | .next =>
    match f.next? with
    | some (l, g) => (some l, g)
    | none => (none, { f with frames := [] })
  | .pushFile file contents => (none, f.pushFile file contents)
  | .pushCall body file line => (none, f.pushCall body file line)

/-- What each operation gives. -/
def answers (f : Feed) : List FeedOp → List (Option SourceLine)
  | [] => []
  | op :: ops => (f.perform op).1 :: (f.perform op).2.answers ops

section Flat

/-- Frames that have come to an end have no lines. -/
theorem flatMap_dropWhile (fs : List Frame) :
    (fs.dropWhile fun f => f.rest.isEmpty).flatMap Frame.flat = fs.flatMap Frame.flat := by
  induction fs with
  | nil => rfl
  | cons f fs ih =>
    by_cases h : f.rest = []
    · rw [List.dropWhile_cons_of_pos (by simp [h]), ih, List.flatMap_cons, Frame.flat_eq_nil h]
      rfl
    · rw [List.dropWhile_cons_of_neg (by simp [h])]

theorem dropWhile_of_next?_eq_none {f : Feed} (h : f.next? = none) :
    f.frames.dropWhile (fun k => k.rest.isEmpty) = [] := by
  cases hd : f.frames.dropWhile fun k => k.rest.isEmpty with
  | nil => rfl
  | cons k ks =>
    have hk : k.rest ≠ [] := by
      have := List.head_dropWhile_not (p := fun k : Frame => k.rest.isEmpty) (l := f.frames)
        (by rw [hd]; exact List.cons_ne_nil k ks)
      simpa [hd] using this
    obtain ⟨t, ts, ht⟩ := List.exists_cons_of_ne_nil hk
    have hn : f.next? = nextInFrame? ⟨k :: ks, f.root⟩ := by
      rw [← hd]
      rfl
    rw [hn, nextInFrame?_cons ht] at h
    cases h

/-- One operation on the frames is the same operation on their lines. -/
theorem perform_flat (f : Feed) (op : FeedOp) :
    f.flat.perform op = ((f.perform op).1, (f.perform op).2.flat) := by
  cases op with
  | next =>
    unfold perform FlatFeed.perform
    dsimp only [flat]
    rw [← flatMap_dropWhile]
    cases hn : f.next? with
    | none =>
      rw [dropWhile_of_next?_eq_none hn]
      rfl
    | some x =>
      obtain ⟨l, g⟩ := x
      obtain ⟨k, ks, t, ts, hk, ht, rfl, rfl⟩ := exists_frame_of_next? hn
      rw [hk, List.flatMap_cons, Frame.flat_cons ht]
      rfl
  | pushFile file contents =>
    unfold perform FlatFeed.perform
    dsimp only [flat, pushFile]
    rw [List.flatMap_cons, Frame.flat_file]
  | pushCall body file line =>
    unfold perform FlatFeed.perform
    dsimp only [flat, pushCall]
    rw [List.flatMap_cons, Frame.flat_call]

/-- Any operations on the frames give what they give on the lines. -/
theorem answers_flat (f : Feed) (ops : List FeedOp) : f.flat.answers ops = f.answers ops := by
  induction ops generalizing f with
  | nil => rfl
  | cons op ops ih =>
    rw [FlatFeed.answers, answers, perform_flat, ih]

end Flat

section CurrentFile

/-- Every call stands above the file that it says it comes from. -/
def Homed : List Frame → Prop
  | [] => True
  | f :: fs => (f.numbering.isCounted = false →
      (fs.find? fun f => f.numbering.isCounted).map Frame.file = some f.file) ∧ Homed fs

theorem Homed.drop {f : Frame} {fs : List Frame} (h : Homed (f :: fs)) (n : Nat) :
    Homed (f.drop n :: fs) := by
  constructor
  · intro hc
    apply h.1
    rw [← hc, Frame.isCounted_drop]
  · exact h.2

theorem Homed.dropWhile {fs : List Frame} (h : Homed fs) (p : Frame → Bool) :
    Homed (fs.dropWhile p) := by
  induction fs with
  | nil => exact h
  | cons f fs ih =>
    by_cases hp : p f = true
    · rw [List.dropWhile_cons_of_pos hp]
      exact ih h.2
    · rw [List.dropWhile_cons_of_neg hp]
      exact h

theorem Homed.next {f g : Feed} {l : SourceLine} (h : Homed f.frames)
    (hn : f.next? = some (l, g)) : Homed g.frames := by
  obtain ⟨k, ks, t, ts, hk, -, -, rfl⟩ := exists_frame_of_next? hn
  have hd := h.dropWhile fun k => k.rest.isEmpty
  rw [hk] at hd
  exact hd.drop 1

/-- The file of the line that has just been handed out is the innermost one. -/
theorem Homed.currentFile? {f g : Feed} {l : SourceLine} (h : Homed f.frames)
    (hn : f.next? = some (l, g)) : g.currentFile? = some l.file := by
  have hg := h.next hn
  obtain ⟨k, ks, t, ts, -, -, rfl, rfl⟩ := exists_frame_of_next? hn
  unfold Feed.currentFile?
  rw [List.find?_cons]
  cases hc : (k.drop 1).numbering.isCounted with
  | true => rfl
  | false => exact hg.1 hc

/-- The supplies that come about if the lines of a call are pushed for the line that has just been
handed out, with the file of that line. -/
inductive Driven : Feed → Prop where
  | empty : Driven {}
  | next {f : Feed} (h : Driven f) : Driven (f.perform .next).2
  | pushFile {f : Feed} (h : Driven f) (file contents : Text) : Driven (f.pushFile file contents)
  | pushCall {f g : Feed} {l : SourceLine} (h : Driven f) (hn : f.next? = some (l, g))
      (body : List Text) (line : Nat) : Driven (g.pushCall body l.file line)
  | takeBlock {f : Feed} (h : Driven f) (stop : Text → Bool) : Driven (f.takeBlock stop).2.2

theorem Driven.of_next? {f g : Feed} {l : SourceLine} (h : f.Driven)
    (hn : f.next? = some (l, g)) : g.Driven := by
  have hd := h.next
  unfold perform at hd
  rwa [hn] at hd

theorem Driven.homed {f : Feed} (h : f.Driven) : Homed f.frames := by
  induction h with
  | empty => trivial
  | @next f _ ih =>
    unfold perform
    dsimp only
    cases hn : f.next? with
    | none => trivial
    | some x => exact ih.next hn
  | pushFile _ file contents ih => exact ⟨fun hc => Bool.noConfusion hc, ih⟩
  | pushCall _ hn body line ih => exact ⟨fun _ => ih.currentFile? hn, ih.next hn⟩
  | @takeBlock f _ stop ih =>
    obtain ⟨fs, r⟩ := f
    cases fs with
    | nil => exact ih
    | cons k ks => exact ih.drop _

end CurrentFile

/-- What a line can do to the lines that follow it. -/
inductive Continues (l : SourceLine) (f : Feed) : Feed → Prop where
  | same : Continues l f f
  | pushFile (file contents : Text) : Continues l f (f.pushFile file contents)
  | pushCall (body : List Text) : Continues l f (f.pushCall body l.file l.line)
  | takeBlock : Continues l f (f.takeBlock Draft.endsTemplate).2.2

end Feed

namespace Draft
open Answer

variable {v : Session} {d d' : Draft} {l : SourceLine} {t : Text}

theorem includeText_continues {e : Entry} {args : Text} (h : d.includeText v e args = .ok d') :
    Feed.Continues l d.feed d'.feed := by
  obtain ⟨found, -, h⟩ := bind_eq_ok.mp h
  cases found with
  | none =>
    obtain rfl := pure_eq_ok.mp h
    exact .same
  | some found =>
    dsimp only at h
    split at h
    · obtain rfl := pure_eq_ok.mp h
      exact .pushFile _ _
    · obtain rfl := pure_eq_ok.mp h
      exact .same

theorem directive_continues (hlead : t.head?.any Directive.isLead = true)
    (h : d.directive v l t = .ok d') : Feed.Continues l d.feed d'.feed := by
  by_cases ht : (Directive.parse t).1 = some .template
  · unfold directive at h
    dsimp only at h
    rw [ht] at h
    obtain rfl := Except.ok.inj h
    rw [template_feed]
    exact .takeBlock
  · by_cases hi : (Directive.parse t).1 = some .includeText
    · unfold directive at h
      dsimp only at h
      rw [hi] at h
      exact includeText_continues h
    · rw [(directive_obeys hlead ht hi h).feed]
      exact .same

theorem statement_continues (h : d.statement v l t = .ok d') : Feed.Continues l d.feed d'.feed := by
  unfold statement at h
  split at h
  · obtain rfl := Except.ok.inj h
    exact .same
  · dsimp only at h
    split at h
    next hlead => exact directive_continues hlead h
    next =>
      split at h
      next hx =>
        obtain rfl := Except.ok.inj h
        simp only [expandCall?, Option.bind_eq_bind, Option.bind_eq_some_iff] at hx
        obtain ⟨⟨name, args⟩, -, m, -, hx⟩ := hx
        obtain rfl := Option.some.inj hx
        exact .pushCall _
      next =>
        rw [(SameControl.of_instruction h).feed]
        exact .same

/-- A line brings the lines of a file or of a call, takes those of a macro, or does none of this. -/
theorem line_continues (h : d.line v l = .ok d') : Feed.Continues l d.feed d'.feed := by
  unfold line at h
  dsimp only at h
  split at h
  · obtain rfl := Except.ok.inj h
    exact .same
  · split at h
    · unfold skippedLine at h
      split at h
      next hs => exact directive_continues (Bool.and_eq_true_iff.mp hs).1 h
      next =>
        obtain rfl := Except.ok.inj h
        exact .same
    · split at h
      · obtain rfl := Except.ok.inj h
        exact .same
      · have hf := takeLabel_feed d l (Text.clean l.text)
        rw [← hf]
        exact statement_continues h

/-- Reading a program pushes the lines of a call with the file of the calling line. -/
theorem driven_of_reads {file source : Text}
    (h : Relation.ReflTransGen (ReadsLine v) (v.start file source) d) : d.feed.Driven := by
  induction h with
  | refl => exact Feed.Driven.empty.pushFile file source
  | @tail d d' _ hr ih =>
    -- Nothing stands between handing out the line and what it does to the supply.
    obtain ⟨l, g, hn, hl⟩ := hr
    have hg := ih.of_next? hn
    have hc : Feed.Continues l g d'.feed := line_continues (d := { d with feed := g }) hl
    generalize d'.feed = f at hc ⊢
    cases hc with
    | same => exact hg
    | pushFile file contents => exact hg.pushFile file contents
    | pushCall body => exact ih.pushCall hn body l.line
    | takeBlock => exact hg.takeBlock _

end Draft

/-- Whatever is done with a supply of lines, it gives the lines of the flat list, and those that it
hands out are numbered from one on without gaps. If calls are pushed with the file of the line that
has just been handed out, as in reading a program, that file is the current one. -/
theorem Feed.answers_eq_flat (ops : List FeedOp) :
    ({} : Feed).answers ops = ({} : FlatFeed).answers ops ∧
    ((({} : Feed).answers ops).filterMap id).map SourceLine.root =
      List.range' 1 ((({} : Feed).answers ops).filterMap id).length ∧
    (∀ (f g : Feed) (l : SourceLine), f.Driven → f.next? = some (l, g) →
      g.currentFile? = some l.file) ∧
    ∀ (v : Session) (file source : Text) (d : Draft),
      Relation.ReflTransGen (Draft.ReadsLine v) (v.start file source) d → d.feed.Driven := by
  have hflat : ({} : FlatFeed).answers ops = ({} : Feed).answers ops := answers_flat {} ops
  refine ⟨hflat.symm, ?_, ?_, ?_⟩
  · rw [← hflat]
    apply FlatFeed.root_answers
  · intro f g l hf hn
    exact hf.homed.currentFile? hn
  · intro v file source d hd
    exact Draft.driven_of_reads hd

/-- A call without lines, a file without lines and a call of one line in a file of two. -/
theorem Feed.answers_eq_flat_sample :
    ({} : Feed).answers [.pushFile "a".toList "m\nn".toList, .next, .pushCall [] "a".toList 1,
        .pushFile "b".toList [], .pushCall ["x".toList] "a".toList 1, .next, .next, .next] =
      [none, some ⟨"m".toList, "a".toList, 1, 1⟩, none, none, none,
        some ⟨"x".toList, "a".toList, 1, 2⟩, some ⟨"n".toList, "a".toList, 2, 3⟩, none] ∧
    Feed.currentFile?
      ⟨[⟨"a".toList, [], .fixed 1⟩, ⟨"a".toList, ["n".toList], .counted 1⟩], 2⟩ =
      some "a".toList := by
  refine ⟨(Feed.answers_eq_flat _).1.trans (by decide), ?_⟩
  have hfile : (Feed.ofFile "a".toList "m\nn".toList).Driven := Feed.Driven.empty.pushFile _ _
  have hnext : (Feed.ofFile "a".toList "m\nn".toList).next? =
      some (⟨"m".toList, "a".toList, 1, 1⟩, ⟨[⟨"a".toList, ["n".toList], .counted 1⟩], 1⟩) := by
    decide
  exact (Feed.answers_eq_flat []).2.2.1 _ _ ⟨"x".toList, "a".toList, 1, 2⟩
    (hfile.pushCall hnext ["x".toList] 1) (by decide)

end Dcpu
