import Dcpu.Proofs.PaddedLines

/-! Supplies of lines whose stacks of frames are the same down to some depth. -/
namespace Dcpu

namespace Frame

/-- The same lines of the same file; their numbers may be others. -/
structure Twin (f f' : Frame) : Prop where
  file : f'.file = f.file
  rest : f'.rest = f.rest
  counted : f'.numbering.isCounted = f.numbering.isCounted

variable {f f' : Frame}

theorem isCounted_drop (f : Frame) (n : Nat) :
    (f.drop n).numbering.isCounted = f.numbering.isCounted := by
  unfold drop
  cases f.numbering with
  | counted => rfl
  | fixed => rfl

theorem Twin.drop (h : f.Twin f') (n : Nat) : (f.drop n).Twin (f'.drop n) where
  file := h.file
  rest := congrArg (List.drop n) h.rest
  counted := by rw [isCounted_drop, isCounted_drop, h.counted]

end Frame

/-- Twins on top of stacks that are related in some other way. -/
inductive OnTop (B : List Frame → List Frame → Prop) : List Frame → List Frame → Prop where
  | base {fs fs' : List Frame} (h : B fs fs') : OnTop B fs fs'
  | push {f f' : Frame} {fs fs' : List Frame} (h : f.Twin f') (hs : OnTop B fs fs') :
      OnTop B (f :: fs) (f' :: fs')

namespace OnTop

variable {B : List Frame → List Frame → Prop} {fs fs' : List Frame}

/-- The innermost files have the same name if those of the stacks below have. -/
theorem find?_isCounted (h : OnTop B fs fs')
    (hB : ∀ {bs bs'}, B bs bs' → (bs'.find? fun f => f.numbering.isCounted).map Frame.file =
      (bs.find? fun f => f.numbering.isCounted).map Frame.file) :
    (fs'.find? fun f => f.numbering.isCounted).map Frame.file =
      (fs.find? fun f => f.numbering.isCounted).map Frame.file := by
  induction h with
  | base h => exact hB h
  | @push f f' fs fs' h hs ih =>
    rw [List.find?_cons, List.find?_cons, h.counted]
    cases f.numbering.isCounted with
    | true => exact congrArg some h.file
    | false => exact ih

/-- The frame to read from is one of the twins, or it lies below them. -/
theorem dropWhile_cases (h : OnTop B fs fs') :
    (∃ f f' gs gs', fs.dropWhile (fun f => f.rest.isEmpty) = f :: gs ∧
      fs'.dropWhile (fun f => f.rest.isEmpty) = f' :: gs' ∧ f.rest ≠ [] ∧ f.Twin f' ∧
      OnTop B gs gs') ∨
    ∃ bs bs', B bs bs' ∧
      fs.dropWhile (fun f => f.rest.isEmpty) = bs.dropWhile (fun f => f.rest.isEmpty) ∧
      fs'.dropWhile (fun f => f.rest.isEmpty) = bs'.dropWhile fun f => f.rest.isEmpty := by
  induction h with
  | @base fs fs' h => exact .inr ⟨fs, fs', h, rfl, rfl⟩
  | @push f f' fs fs' h hs ih =>
    by_cases he : f.rest = []
    · have he' : f'.rest = [] := h.rest.trans he
      rw [List.dropWhile_cons_of_pos (by simp [he]), List.dropWhile_cons_of_pos (by simp [he'])]
      exact ih
    · have he' : f'.rest ≠ [] := fun hn => he (h.rest.symm.trans hn)
      refine .inl ⟨f, f', fs, fs', ?_, ?_, he, h, hs⟩
      · exact List.dropWhile_cons_of_neg (by simp [he])
      · exact List.dropWhile_cons_of_neg (by simp [he'])

end OnTop

namespace Feed

section Block

variable (stop : Text → Bool)

/-- The clean lines before the end of a block. -/
def blockBody (rest : List Text) : List Text := (rest.map Text.clean).takeWhile fun t => !stop t

/-- The clean line that ends a block. -/
def blockEnd? (rest : List Text) : Option Text :=
  ((rest.map Text.clean).drop (blockBody stop rest).length).head?

/-- The number of lines of a block with its end. -/
def blockLength (rest : List Text) : Nat :=
  (blockBody stop rest).length + (blockEnd? stop rest).toList.length

variable {stop} {F : Feed → Feed → Prop} {f f' : Frame} {fs fs' : List Frame} {r r' : Nat}

theorem takeBlock_feed :
    (takeBlock stop ⟨f :: fs, r⟩).2.2 =
      ⟨f.drop (blockLength stop f.rest) :: fs, r + blockLength stop f.rest⟩ :=
  rfl

theorem takeBlock_last :
    (takeBlock stop ⟨f :: fs, r⟩).2.1.map BlockLine.text = blockEnd? stop f.rest := by
  unfold takeBlock blockEnd? blockBody
  simp only [Option.map_map]
  exact congrFun Option.map_id _

theorem takeBlock_body :
    ((takeBlock stop ⟨f :: fs, r⟩).1.filter BlockLine.isKept).map BlockLine.text =
      (blockBody stop f.rest).filter fun t => !t.isEmpty && t != ['{'] := by
  unfold takeBlock
  simp only [List.filter_map, List.map_map]
  have h := List.filter_map (f := Prod.fst) (p := fun t : Text => !t.isEmpty && t != ['{'])
    (l := (blockBody stop f.rest).zipIdx)
  rw [List.zipIdx_map_fst] at h
  rw [h]
  rfl

/-- Frames that start with the same block give the same macro. -/
theorem SameBlock.of_blocks (hb : blockBody Draft.endsTemplate f'.rest =
      blockBody Draft.endsTemplate f.rest)
    (he : blockEnd? Draft.endsTemplate f'.rest = blockEnd? Draft.endsTemplate f.rest)
    (hF : F ⟨f.drop (blockLength Draft.endsTemplate f.rest) :: fs,
        r + blockLength Draft.endsTemplate f.rest⟩
      ⟨f'.drop (blockLength Draft.endsTemplate f.rest) :: fs',
        r' + blockLength Draft.endsTemplate f.rest⟩) :
    SameBlock F ⟨f :: fs, r⟩ ⟨f' :: fs', r'⟩ where
  body := by rw [takeBlock_body, takeBlock_body, hb]
  last := by rw [takeBlock_last, takeBlock_last, he]
  feed := by
    have hl : blockLength Draft.endsTemplate f'.rest = blockLength Draft.endsTemplate f.rest := by
      rw [blockLength, blockLength, hb, he]
    rw [takeBlock_feed, takeBlock_feed, hl]
    exact hF

end Block

/-- Supplies that differ below the twins. The lines to come get the numbers that follow. -/
structure Beside (p : Padding) (B : List Frame → List Frame → Prop) (f f' : Feed) : Prop where
  frames : OnTop B f.frames f'.frames
  ahead : ∀ k, p.line (f.root + (k + 1)) = f'.root + (k + 1)

variable {p : Padding} {B : List Frame → List Frame → Prop}

theorem Beside.paired (hB : ∀ {bs bs'}, B bs bs' →
      (bs'.find? fun f => f.numbering.isCounted).map Frame.file =
        (bs.find? fun f => f.numbering.isCounted).map Frame.file) : Paired (Beside p B) where
  currentFile h := h.frames.find?_isCounted hB
  pushFile _ _ h := ⟨.push ⟨rfl, rfl, rfl⟩ h.frames, h.ahead⟩
  pushCall _ _ _ _ h := ⟨.push ⟨rfl, rfl, rfl⟩ h.frames, h.ahead⟩

/-- The numbers after `n` more lines. -/
theorem ahead_add {r r' : Nat} (h : ∀ k, p.line (r + (k + 1)) = r' + (k + 1)) (n k : Nat) :
    p.line (r + n + (k + 1)) = r' + n + (k + 1) := by
  have := h (n + k)
  rw [show r + n + (k + 1) = r + (n + k + 1) by omega, this]
  omega

section Twins

variable {f f' : Frame} {gs gs' : List Frame} {r r' : Nat}

/-- Twins go on alike after any number of lines. -/
theorem Beside.drop (h : f.Twin f') (hs : OnTop B gs gs')
    (hr : ∀ k, p.line (r + (k + 1)) = r' + (k + 1)) (n : Nat) :
    Beside p B ⟨f.drop n :: gs, r + n⟩ ⟨f'.drop n :: gs', r' + n⟩ :=
  ⟨.push (h.drop n) hs, ahead_add hr n⟩

theorem SameBlock.of_twins (h : f.Twin f') (hs : OnTop B gs gs')
    (hr : ∀ k, p.line (r + (k + 1)) = r' + (k + 1)) :
    SameBlock (Beside p B) ⟨f :: gs, r⟩ ⟨f' :: gs', r'⟩ := by
  refine .of_blocks ?_ ?_ (.drop h hs hr _)
  · rw [h.rest]
  · rw [h.rest]

theorem nextInFrame?_cons {t : Text} {ts : List Text} (h : f.rest = t :: ts) :
    nextInFrame? ⟨f :: gs, r⟩ =
      some (⟨t, f.file, f.numbering.ahead 0, r + 1⟩, ⟨f.drop 1 :: gs, r + 1⟩) := by
  unfold nextInFrame?
  simp only [h]

theorem next?_eq {fs : List Frame} :
    next? ⟨fs, r⟩ = nextInFrame? ⟨fs.dropWhile fun f => f.rest.isEmpty, r⟩ :=
  rfl

/-- The frame that the next line comes from. -/
theorem exists_frame_of_next? {f g : Feed} {l : SourceLine} (h : f.next? = some (l, g)) :
    ∃ k ks t ts, f.frames.dropWhile (fun k => k.rest.isEmpty) = k :: ks ∧ k.rest = t :: ts ∧
      l = ⟨t, k.file, k.numbering.ahead 0, f.root + 1⟩ ∧ g = ⟨k.drop 1 :: ks, f.root + 1⟩ := by
  unfold next? nextInFrame? at h
  dsimp only at h
  split at h
  · cases h
  next k ks hk =>
    split at h
    · cases h
    next t ts ht =>
      obtain ⟨rfl, rfl⟩ := Prod.mk.inj (Option.some.inj h)
      exact ⟨k, ks, t, ts, hk, ht, rfl, rfl⟩

/-- The next lines of twins. -/
theorem exists_next_of_twins {fs fs' : List Frame}
    (hf : fs.dropWhile (fun f => f.rest.isEmpty) = f :: gs)
    (hf' : fs'.dropWhile (fun f => f.rest.isEmpty) = f' :: gs') (hn : f.rest ≠ []) (h : f.Twin f')
    (hs : OnTop B gs gs') (hr : ∀ k, p.line (r + (k + 1)) = r' + (k + 1)) :
    ∃ l l' g g', next? ⟨fs, r⟩ = some (l, g) ∧ next? ⟨fs', r'⟩ = some (l', g') ∧ l.Twin p l' ∧
      Beside p B g g' ∧ SameBlock (Beside p B) g g' := by
  obtain ⟨t, ts, ht⟩ := List.exists_cons_of_ne_nil hn
  have ht' : f'.rest = t :: ts := h.rest.trans ht
  rw [next?_eq, next?_eq, hf, hf', nextInFrame?_cons ht, nextInFrame?_cons ht']
  refine ⟨_, _, _, _, rfl, rfl, ⟨rfl, h.file, (hr 0).symm⟩, .drop h hs hr 1, ?_⟩
  exact .of_twins (h.drop 1) hs (ahead_add hr 1)

theorem SameNext.of_twins {fs fs' : List Frame}
    (hf : fs.dropWhile (fun f => f.rest.isEmpty) = f :: gs)
    (hf' : fs'.dropWhile (fun f => f.rest.isEmpty) = f' :: gs') (hn : f.rest ≠ []) (h : f.Twin f')
    (hs : OnTop B gs gs') (hr : ∀ k, p.line (r + (k + 1)) = r' + (k + 1)) :
    SameNext p (Beside p B) ⟨fs, r⟩ ⟨fs', r'⟩ := by
  obtain ⟨l, l', g, g', hl, hl', ht, hg, hb⟩ := exists_next_of_twins hf hf' hn h hs hr
  unfold SameNext
  rw [hl, hl']
  exact .some ⟨ht, hg, fun _ => hb⟩

end Twins

/-- Supplies stay in step if they do so where the twins have come to an end. -/
theorem Beside.lockstep (hB : ∀ {bs bs'}, B bs bs' →
      (bs'.find? fun f => f.numbering.isCounted).map Frame.file =
        (bs.find? fun f => f.numbering.isCounted).map Frame.file)
    (hn : ∀ {bs bs' r r'}, B bs bs' → (∀ k, p.line (r + (k + 1)) = r' + (k + 1)) →
      SameNext p (Beside p B) ⟨bs, r⟩ ⟨bs', r'⟩) : Lockstep p (Beside p B) where
  toPaired := Beside.paired hB
  next {f f'} h := by
    obtain ⟨fs, r⟩ := f
    obtain ⟨fs', r'⟩ := f'
    rcases h.frames.dropWhile_cases with ⟨g, g', gs, gs', hg, hg', hne, ht, hs⟩ |
      ⟨bs, bs', hbs, hd, hd'⟩
    · exact .of_twins hg hg' hne ht hs h.ahead
    · have hbelow := hn hbs h.ahead
      unfold SameNext at hbelow ⊢
      dsimp only at hd hd'
      rw [next?_eq, next?_eq] at hbelow ⊢
      rw [hd, hd']
      exact hbelow

/-- Nothing lies below the twins. -/
def IsBottom (fs fs' : List Frame) : Prop := fs = [] ∧ fs' = []

theorem lockstep_isBottom : Lockstep p (Beside p IsBottom) := by
  refine Beside.lockstep ?_ ?_
  · rintro bs bs' ⟨rfl, rfl⟩
    rfl
  · rintro bs bs' r r' ⟨rfl, rfl⟩ -
    exact .none

end Feed

end Dcpu
