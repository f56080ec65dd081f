import Dcpu.Proofs.DataLines
import Dcpu.Proofs.Equates
import Dcpu.Proofs.Matching
import Dcpu.Command.Run

/-! Packed files. The words that a packed file is included as have the bytes of the file, the low
byte of each word first, so a program that was written in this order is read back as it was. -/
namespace Dcpu
open Answer

namespace Word

theorem toNat_lowByte (w : Word) : w.lowByte.toNat = w.toNat % 256 := rfl

theorem toNat_highByte (w : Word) : w.highByte.toNat = w.toNat / 256 := by
  have hlt : w.toNat / 256 < 256 := by
    have := w.toNat_lt
    omega
  have hshift : (w >>> 8).toNat = w.toNat / 256 := by
    rw [UInt16.toNat_shiftRight]
    exact Nat.shiftRight_eq_div_pow ..
  rw [highByte, UInt16.toNat_toUInt8, hshift]
  exact Nat.mod_eq_of_lt hlt

theorem toNat_ofBytes (low high : UInt8) :
    (ofBytes low high).toNat = high.toNat * 256 + low.toNat := by
  have hlow : low.toNat < 2 ^ 8 := low.toNat_lt
  have hhigh : high.toNat <<< 8 < 2 ^ 16 := by
    rw [Nat.shiftLeft_eq]
    have := high.toNat_lt
    omega
  have hshift : (high.toUInt16 <<< 8).toNat = high.toNat <<< 8 := by
    rw [UInt16.toNat_shiftLeft]
    exact Nat.mod_eq_of_lt hhigh
  rw [ofBytes, UInt16.toNat_or, hshift, UInt8.toNat_toUInt16, Nat.or_comm,
    ← Nat.shiftLeft_add_eq_or_of_lt hlow, Nat.shiftLeft_eq]

theorem ofBytes_bytes (w : Word) : ofBytes w.lowByte w.highByte = w := by
  apply UInt16.toNat.inj
  rw [toNat_ofBytes, toNat_lowByte, toNat_highByte, Nat.mul_comm]
  exact Nat.div_add_mod w.toNat 256

theorem lowByte_ofBytes (low high : UInt8) : (ofBytes low high).lowByte = low := by
  apply UInt8.toNat.inj
  have hlow := low.toNat_lt
  rw [toNat_lowByte, toNat_ofBytes]
  omega

theorem highByte_ofBytes (low high : UInt8) : (ofBytes low high).highByte = high := by
  apply UInt8.toNat.inj
  have hlow := low.toNat_lt
  rw [toNat_highByte, toNat_ofBytes]
  omega

end Word

namespace Image

theorem toBytes_little_cons (w : Word) (ws : List Word) :
    toBytes .little (w :: ws) = w.lowByte :: w.highByte :: toBytes .little ws := rfl

/-- Words come back from their bytes. -/
theorem pack_toBytes (ws : List Word) : pack (toBytes .little ws) = ws := by
  induction ws with
  | nil => rfl
  | cons w ws ih => rw [toBytes_little_cons, pack, Word.ofBytes_bytes, ih]

theorem length_pack (bs : List UInt8) : (pack bs).length = (bs.length + 1) / 2 := by
  induction bs using pack.induct with
  | case1 => rfl
  | case2 low => simp [pack]
  | case3 low high rest ih =>
    rw [pack, List.length_cons, ih, List.length_cons, List.length_cons]
    omega

/-- Bytes come back from their words. A last single byte comes back with a zero behind it. -/
theorem toBytes_pack (bs : List UInt8) :
    toBytes .little (pack bs) = bs ++ List.replicate (bs.length % 2) 0 := by
  induction bs using pack.induct with
  | case1 => rfl
  | case2 low =>
    rw [pack, toBytes_little_cons, Word.lowByte_ofBytes, Word.highByte_ofBytes]
    rfl
  | case3 low high rest ih =>
    rw [pack, toBytes_little_cons, Word.lowByte_ofBytes, Word.highByte_ofBytes, ih,
      List.length_cons, List.length_cons, Nat.add_assoc, Nat.add_mod_right]
    rfl

/-- The bytes of each pair in the other order. -/
def swapPairs : List UInt8 → List UInt8
  | a :: b :: rest => b :: a :: swapPairs rest
  | bs => bs

theorem toBytes_big (ws : List Word) : toBytes .big ws = swapPairs (toBytes .little ws) := by
  induction ws with
  | nil => rfl
  | cons w ws ih =>
    rw [toBytes_little_cons, swapPairs, ← ih]
    rfl

/-- Words that hold all bytes of a file. -/
structure Packed (bs : List UInt8) (ws : List Word) : Prop where
  words : ∀ us, bs = toBytes .little us → ws = us
  length : ws.length = (bs.length + 1) / 2
  little : toBytes .little ws = bs ++ List.replicate (bs.length % 2) 0
  big : toBytes .big ws = swapPairs (bs ++ List.replicate (bs.length % 2) 0)

theorem packed_pack (bs : List UInt8) : Packed bs (pack bs) where
  words us h := by rw [h, pack_toBytes]
  length := length_pack bs
  little := toBytes_pack bs
  big := by rw [toBytes_big, toBytes_pack]

end Image

namespace Draft

variable {v : Session} {d d' : Draft} {line : SourceLine} {bs : List UInt8}

/-- A line that counts includes a packed file with these bytes. It is carried out in `d'`, where the
label at the start of the line is bound already. -/
structure PacksFile (v : Session) (d d' : Draft) (line : SourceLine) (bs : List UInt8) : Prop where
  active : d.blocks.active = true
  unclaimed : v.hooks.claim? ⟨line.file, line.line, d.address⟩ (Text.clean line.text) = none
  statement : ∃ rest args path, d.takeLabel line (Text.clean line.text) = (d', rest) ∧ rest ≠ [] ∧
    (canonicalStatement rest).head?.any Directive.isLead = true ∧
    Directive.parse (canonicalStatement rest) = (some (.includeBytes true), args) ∧
    d'.locate v args = .ok (some (path, .file bs))

/-- The entry that a packed file becomes. -/
def packedEntry (d : Draft) (line : SourceLine) (t : Text) (bs : List UInt8) : Entry :=
  { d.entry line t with body := .words (Image.pack bs) }

theorem PacksFile.line_eq (h : PacksFile v d d' line bs) :
    ∃ t, d.line v line = .ok (d'.push (d'.packedEntry line t bs)) := by
  obtain ⟨rest, args, path, hlabel, hne, hlead, hparse, hfile⟩ := h.statement
  refine ⟨canonicalStatement rest, ?_⟩
  have hclean : (Text.clean line.text).isEmpty = false := by
    rw [← Bool.not_eq_true]
    intro he
    rw [List.isEmpty_iff.mp he] at hlabel
    exact hne (Prod.mk.inj hlabel).2.symm
  have hrest : rest.isEmpty = false := by simpa using hne
  have hinclude : d'.includeBytes v true (d'.entry line (canonicalStatement rest)) args =
      .ok (d'.push (d'.packedEntry line (canonicalStatement rest) bs)) := by
    rw [includeBytes, hfile]
    rfl
  simp only [Draft.line, hclean, h.active, h.unclaimed, hlabel, Draft.statement, hrest, hlead,
    directive, hparse]
  simpa using hinclude

end Draft

section IncludeLines

variable {v : Session} {head name : Text} {bs : List UInt8}

/-- A directive with the name of a file in quotes. -/
def includeLine (head name : Text) : Text := head ++ ' ' :: '"' :: (name ++ ['"'])

/-- A name that stands between quotes as it is. -/
structure PlainName (name : Text) : Prop where
  ne_nil : name ≠ []
  plain : ∀ c ∈ name, c ≠ '"' ∧ c ≠ '\'' ∧ c ≠ '\\' ∧ c ≠ '\n' ∧ c ≠ '\r'

theorem PlainName.escape_eq (h : PlainName name) : Text.escape name = name := by
  have hsingle : ∀ c ∈ name, Text.escapeChar c = [c] := by
    intro c hc
    obtain ⟨hq, -, hb, hn, hr⟩ := h.plain c hc
    simp [Text.escapeChar, hq, hb, hn, hr]
  rw [Text.escape, List.flatMap_congr hsingle, List.flatMap_singleton']

theorem PlainName.dataArgs_eq (h : PlainName name) :
    dataArgs [.text name] = '"' :: (name ++ ['"']) := by
  rw [dataArgs_cons, DataItem.source, h.escape_eq]
  simp [dataTail]

/-- For a scan, the name is an item of a directive. -/
theorem PlainName.includeLine_eq (h : PlainName name) (head : Text) :
    includeLine head name = dataLine head [.text name] := by
  rw [dataLine, h.dataArgs_eq, includeLine]

/-- The quotes around a name are taken off, and nothing of the name. -/
theorem strip_quoted {p : Char → Bool} (hp : p '"' = true) (h : ∀ c ∈ name, p c = false) :
    ((('"' :: (name ++ ['"'])).dropWhile p).reverse.dropWhile p).reverse = name := by
  have hquote : ∀ c ∈ ['"'], p c = true := by simpa using hp
  have hkeep {u : Text} (hu : ∀ c ∈ u, p c = false) : u.dropWhile p = u := by
    cases u with
    | nil => rfl
    | cons c u => exact List.dropWhile_cons_of_neg (by simp [hu c])
  show Text.stripBy p (['"'] ++ (name ++ ['"'])) = name
  rw [Text.stripBy_append_left hquote, Text.stripBy_append_right _ hquote, Text.stripBy, hkeep h,
    hkeep fun c hc => h c (List.mem_reverse.mp hc), List.reverse_reverse]

/-- A name in quotes is looked for as it is, and then next to the including file. -/
theorem PlainName.candidates (h : PlainName name) (d : Draft) (settings : Settings) :
    d.candidates settings (dataArgs [.text name]) =
      name :: ((d.feed.currentFile?.bind Path.parent?).map (Path.join · name)).toList := by
  have htrim : Text.trim (dataArgs [.text name]) = '"' :: (name ++ ['"']) := by
    rw [← h.dataArgs_eq]
    apply Text.trim_eq_self
    · exact fun c hc => Text.isBlank_of_quote_or_digit (of_mem_head?_dataArgs hc)
    · exact fun c hc => Text.isBlank_of_quote_or_digit (of_mem_getLast?_dataArgs hc)
  have hstrip := strip_quoted (p := fun c => c == '"' || c == '\'') (by decide) (by
    intro c hc
    obtain ⟨hq, ha, -⟩ := h.plain c hc
    simp [hq, ha])
  have hempty : name.isEmpty = false := by simpa using h.ne_nil
  unfold Draft.candidates
  simp only [htrim, hstrip, hempty]
  rfl

theorem PlainName.locate (h : PlainName name) (hf : v.disk name = .ok (.file bs)) (d : Draft) :
    d.locate v (dataArgs [.text name]) = .ok (some (name, .file bs)) := by
  have hfirst : v.disk.firstFile? (d.candidates v.settings (dataArgs [.text name])) =
      .ok (some name) := by
    rw [h.candidates, Disk.firstFile?, hf]
    rfl
  rw [Draft.locate, hfirst]
  change (v.disk name >>= fun n => pure (some (name, n))) = _
  rw [hf]
  rfl

/-- The directive that includes a packed file, in letters of either case. -/
structure PackHead (head : Text) : Prop where
  lower : Text.lower head = ".incpack".toList

namespace PackHead

theorem eq_cons (h : PackHead head) :
    ∃ word, head = '.' :: word ∧ Text.lower word = "incpack".toList := by
  cases head with
  | nil => cases h.lower
  | cons c word =>
    obtain ⟨hc, hword⟩ := List.cons_eq_cons.mp (h.lower.trans rfl : _ = '.' :: "incpack".toList)
    exact ⟨word, by rw [(Text.toLower_eq_iff (by decide)).mp hc], hword⟩

theorem isWordChar (h : PackHead head) {c : Char} (hc : c ∈ head) :
    Text.isWordChar c = true := by
  have hall : ".incpack".toList.all Text.isWordChar = true := by decide
  have hm : c.toLower ∈ Text.lower head := List.mem_map_of_mem hc
  rw [← Text.isWordChar_toLower]
  rw [h.lower] at hm
  exact List.all_eq_true.mp hall _ hm

theorem canonical (h : PackHead head) :
    canonicalStatement (dataLine head [.text name]) = dataLine head [.text name] := by
  obtain ⟨word, rfl, hword⟩ := h.eq_cons
  have hne : ¬Text.sameFolded ('.' :: word) "dat".toList = true := by
    simp [Text.sameFolded, Text.lower]
  unfold canonicalStatement
  rw [firstWord_dataLine (List.cons_ne_nil _ _) fun c => h.isWordChar]
  dsimp only
  rw [sameFolded_firstWord_dataArgs, Bool.and_false, if_neg (by decide), if_neg hne]

theorem parse (h : PackHead head) :
    Directive.parse (dataLine head [.text name]) =
      (some (.includeBytes true), dataArgs [.text name]) := by
  obtain ⟨word, rfl, hword⟩ := h.eq_cons
  have hne : word ≠ [] := by
    rintro rfl
    cases hword
  have hwc : ∀ c ∈ word, Text.isWordChar c = true := fun c hc => h.isWordChar (by simp [hc])
  have hdrop : (dataLine ('.' :: word) [.text name]).drop 1 = dataLine word [.text name] := rfl
  unfold Directive.parse
  rw [hdrop, firstWord_dataLine hne hwc]
  dsimp only
  rw [Directive.ofName?, hword]
  rfl

/-- Wherever lines count and no plugin takes them, such a line includes the packed file. -/
theorem packsFile (h : PackHead head) (hname : PlainName name) (hp : v.hooks.plugins = [])
    (hf : v.disk name = .ok (.file bs)) {d : Draft} (ha : d.blocks.active = true)
    {line : SourceLine} (hl : line.text = includeLine head name) : d.PacksFile v d line bs := by
  have hwc := fun c (hc : c ∈ head) => h.isWordChar hc
  have hne : head ≠ [] := by
    obtain ⟨word, rfl, -⟩ := h.eq_cons
    exact List.cons_ne_nil _ _
  have hclean : Text.clean line.text = dataLine head [.text name] := by
    rw [hl, hname.includeLine_eq, clean_dataLine hwc hne]
  refine ⟨ha, by simp [Hooks.claim?, hp], dataLine head [.text name], dataArgs [.text name], name,
    ?_, by simp [dataLine], ?_, ?_, hname.locate hf d⟩
  · rw [hclean, Draft.takeLabel, ofLine?_dataLine hwc]
  · obtain ⟨word, rfl, -⟩ := h.eq_cons
    rw [h.canonical]
    rfl
  · rw [h.canonical, h.parse]

end PackHead

theorem newline_not_mem_includeLine (h : PackHead head) (hname : PlainName name) :
    '\n' ∉ includeLine head name := by
  rw [hname.includeLine_eq]
  exact newline_not_mem_dataLine (fun c hc => h.isWordChar hc) _

/-- As a program of its own, such a line is assembled to the words of the file. -/
theorem run_includeLine (h : PackHead head) (hname : PlainName name) (hp : v.hooks.plugins = [])
    (hf : v.disk name = .ok (.file bs)) (steps : Nat) (file : Text) :
    ∃ e, v.run (steps + 2) file (includeLine head name) = .ok ⟨[e], v.symbols, 1, true, []⟩ ∧
      e.fault = none ∧ e.output = Image.pack bs := by
  let d : Draft :=
    { v.start file (includeLine head name) with feed := ⟨[⟨file, [], .counted 1⟩], 1⟩ }
  let line : SourceLine := ⟨includeLine head name, file, 1, 1⟩
  have hnext : (v.start file (includeLine head name)).feed.next? = some (line, d.feed) :=
    Feed.next?_ofFile_single (by simp [includeLine]) (newline_not_mem_includeLine h hname) file
  have hpacks : d.PacksFile v d line bs := h.packsFile hname hp hf rfl rfl
  obtain ⟨t, hline⟩ := hpacks.line_eq
  have hread := Draft.readAll_of_next? hnext hline (steps + 1)
  obtain ⟨c, hpush⟩ := d.push_eq (d.packedEntry line t bs)
  rw [hpush] at hread
  refine ⟨{ d.packedEntry line t bs with caution := c }, ?_, rfl, rfl⟩
  rw [Session.run, hread]
  change v.finish _ = _
  rw [Session.finish_of_fixed hp]
  · rfl
  · intro e he
    obtain rfl := List.mem_singleton.mp he
    rfl

end IncludeLines

/-- In a program, the words of a packed file stay as they were read. -/
theorem exists_packedEntry {v : Session} {steps : Nat} {file source : Text} {a : Assembly}
    {d d' : Draft} {line : SourceLine} {feed : Feed} {bs : List UInt8}
    (hr : Relation.ReflTransGen (Draft.ReadsLine v) (v.start file source) d)
    (hn : d.feed.next? = some (line, feed))
    (hq : { d with feed := feed }.PacksFile v d' line bs) (ha : v.run steps file source = .ok a) :
    ∃ e, a.entries[d'.entries.size]? = some e ∧ e.fault = none ∧ e.output = Image.pack bs := by
  obtain ⟨last, l, hlast, hp, hae, -, -⟩ := Session.run_passes ha
  obtain ⟨next, hread, hsteps⟩ := Draft.exists_readsLine hr hlast (by simp [hn])
  obtain ⟨t, hline⟩ := hq.line_eq
  obtain rfl : next = _ := hread.unique ⟨line, feed, hn, hline⟩
  obtain ⟨c, hc⟩ := d'.exists_pushed (d'.packedEntry line t bs)
  obtain ⟨e, he, heq⟩ := exists_final hsteps hp hc rfl
  refine ⟨e, by rw [hae]; exact he, ?_, ?_⟩
  · rw [heq]
    rfl
  · rw [heq]
    rfl

/-- Packed files hold all bytes. A line that includes one becomes an entry with the words of the
file, in every program in which it is read, and as a program of its own it is assembled to them. So
a program that was written with low bytes first is included as it was. -/
theorem packedFile_roundTrip (v : Session) (bs : List UInt8) :
    (∀ d d' line, Draft.PacksFile v d d' line bs →
      ∃ e, d.line v line = .ok (d'.push e) ∧ e.fault = none ∧ Image.Packed bs e.output) ∧
    (∀ steps file source a d d' line feed, v.run steps file source = .ok a →
      Relation.ReflTransGen (Draft.ReadsLine v) (v.start file source) d →
      d.feed.next? = some (line, feed) → { d with feed := feed }.PacksFile v d' line bs →
      ∃ e, a.entries[d'.entries.size]? = some e ∧ e.fault = none ∧ Image.Packed bs e.output) ∧
    ∀ head name steps file, PackHead head → PlainName name → v.disk name = .ok (.file bs) →
      v.hooks.plugins = [] → 2 ≤ steps →
      ∃ a, v.run steps file (includeLine head name) = .ok a ∧ a.isClean = true ∧
        Image.Packed bs a.words ∧
        ∀ o b, o.littleEndian = true → Command.binaryEffect o b = .write name bs →
          a.words = b.words := by
  have hpacked := Image.packed_pack bs
  refine ⟨?_, ?_, ?_⟩
  · intro d d' line h
    obtain ⟨t, hline⟩ := h.line_eq
    exact ⟨_, hline, rfl, hpacked⟩
  · intro steps file source a d d' line feed ha hr hn hq
    obtain ⟨e, he, hfault, hout⟩ := exists_packedEntry hr hn hq ha
    exact ⟨e, he, hfault, by rw [hout]; exact hpacked⟩
  · intro head name steps file hhead hname hfile hplugins hsteps
    obtain ⟨n, rfl⟩ := Nat.exists_eq_add_of_le' hsteps
    obtain ⟨e, hrun, hfault, hout⟩ := run_includeLine hhead hname hplugins hfile n file
    have hwords : Assembly.words ⟨[e], v.symbols, 1, true, []⟩ = Image.pack bs := by
      rw [Assembly.words, List.flatMap_singleton, hout]
    refine ⟨_, hrun, ?_, by rw [hwords]; exact hpacked, ?_⟩
    · simp [Assembly.isClean, Assembly.faulty, hfault]
    · intro o b horder hwrite
      rw [hwords]
      apply hpacked.words
      simp only [Command.binaryEffect, horder, if_true] at hwrite
      split at hwrite
      next => cases hwrite
      next => exact (Command.Effect.write.inj hwrite).2.symm

/-- A session with a file of three bytes. -/
def Session.withData : Session :=
  { Session.bare with
    disk := fun path =>
      if path = "data.bin".toList then .ok (.file [0x34, 0x12, 0xff]) else .ok .missing }

theorem packedFile_roundTrip_sample :
    ∃ (a : Assembly) (e : Entry),
      Session.withData.run 2 [] ".IncPack \"data.bin\"".toList = .ok a ∧ a.isClean = true ∧
      a.words = [0x1234, 0xff] ∧ Image.toBytes .big a.words = [0x12, 0x34, 0x00, 0xff] ∧
      a.entries[0]? = some e ∧ e.output.length = 2 := by
  have hhead : PackHead ".IncPack".toList := ⟨by decide⟩
  have hname : PlainName "data.bin".toList := ⟨by decide, by simp⟩
  have hfile : Session.withData.disk "data.bin".toList = .ok (.file [0x34, 0x12, 0xff]) := by
    decide
  have hsource : ".IncPack \"data.bin\"".toList =
      includeLine ".IncPack".toList "data.bin".toList := by decide
  obtain ⟨-, hprogram, hsingle⟩ := packedFile_roundTrip .withData [0x34, 0x12, 0xff]
  obtain ⟨a, hrun, hclean, hpacked, -⟩ :=
    hsingle ".IncPack".toList "data.bin".toList 2 [] hhead hname hfile rfl (by decide)
  have hnext := Feed.next?_ofFile_single
    (t := includeLine ".IncPack".toList "data.bin".toList) (by decide) (by decide) []
  obtain ⟨e, he, -, hentry⟩ := hprogram 2 [] _ a _ _ _ _ hrun .refl hnext
    (hhead.packsFile hname rfl hfile rfl rfl)
  have hwords : a.words = [0x1234, 0xff] := by
    rw [← Image.pack_toBytes a.words, hpacked.little]
    decide
  refine ⟨a, e, by rw [hsource]; exact hrun, hclean, hwords, by rw [hwords]; decide, he, ?_⟩
  rw [hentry.length]
  rfl

end Dcpu
